import Mathlib
import ContainerProbe.Pattern.Backtrack

/-!
# The loops of a match end

A call of the backtracking matcher returns after boundedly many iterations of its two loops,
whatever the memo left by earlier calls holds. The bound is twice the number of states of the
naive search tree below the start (`View.searchSize`): that tree has one state for each way of
choosing, fragment by fragment, a take of every gap and a matching branch of every alternatives,
so each choice is counted once.

The argument is a potential. An iteration of the advance loop enters a state of the tree, so
the states left to explore (those below the current state and below the untried options on the
stack) lose one; an iteration of the backtrack loop either pops a choice point with no option
left, and the stack shrinks, or resumes one, handing one of its pending subtrees to the advance
loop. Twice the states left, plus the height of the stack, plus one while backtracking, falls at
every iteration.

The machine of `Loop.step` runs the same loops as `advance`, `backtrack` and `search`: each
of these iterates the body of its loop (`advance_eq_round`, `backtrack_eq_round`), so what the
call returns is the same from every state the machine passes through (`Loop.outcome_step`).

## Main statements

* `Loop.potential_step_advancing`, `Loop.potential_step_backtracking`: an iteration lowers the
  potential.
* `Loop.iterate_step_of_potential_le`: as many iterations as the potential reach the return.
* `loops_return_within_bound`: a call returns what `Backtracker.matchAt` returns, within twice
  as many iterations as the search tree below its start has states.
-/

namespace ContainerProbe

variable {fs : List Fragment} {v : View} {requireEnd : Bool} {memo : Memo}

/-! ## §1 Each loop iterates its body -/

theorem advance_eq_round (index pos : Nat) (stack : List (Choice × Nat))
    (trail : List (Nat × Nat)) :
    advance fs memo v requireEnd index pos stack trail =
      match advanceRound fs memo v requireEnd index pos stack trail with
      | .next index pos stack trail => advance fs memo v requireEnd index pos stack trail
      | .exit result => result := by
  rw [advance, advanceRound]
  split
  · split
    · rfl
    · dsimp only
      -- the round and the loop branch on the same fragment
      generalize fs[index] = f
      cases f with
      | literal bytes => dsimp only; split <;> rfl
      | byteSet c => dsimp only; split <;> rfl
      | gap lo hi => dsimp only; split <;> (try split) <;> rfl
      | alternatives branches =>
        dsimp only
        rcases v.firstBranch branches pos 0 with _ | ⟨b, e⟩ <;> rfl
  · split <;> rfl

theorem backtrack_eq_round (trail : List (Nat × Nat)) (stack : List (Choice × Nat)) :
    backtrack fs v memo trail stack =
      match backtrackRound fs v memo trail stack with
      | .next memo stack trail => backtrack fs v memo trail stack
      | .exit result => result := by
  match stack with
  | [] => rfl
  | (.gap g base lo taken maxTake, mark) :: stack =>
    rw [backtrack, backtrackRound]
    split <;> rfl
  | (.alternative a offset next, mark) :: stack =>
    rw [backtrack, backtrackRound]
    generalize fs[a]? = f
    rcases f with _ | (_ | _ | _ | branches)
    case alternatives =>
      dsimp only
      rcases v.firstBranch branches offset next with _ | ⟨b, e⟩ <;> rfl
    all_goals rfl

/-! ## §2 What a call returns from each state of its loops -/

/-- What the call returns from a state of its loops. -/
def Loop.outcome (fs : List Fragment) (v : View) (requireEnd : Bool) : Loop → Bool × Memo
  | advancing memo stack trail index pos => search fs v requireEnd memo stack trail index pos
  | backtracking memo stack trail =>
    match backtrack fs v memo trail stack with
    | .exhausted memo => (false, memo)
    | .resume memo stack trail index pos => search fs v requireEnd memo stack trail index pos
  | returned answer memo => (answer, memo)

theorem search_eq (stack : List (Choice × Nat)) (trail : List (Nat × Nat)) (index pos : Nat) :
    search fs v requireEnd memo stack trail index pos =
      match advance fs memo v requireEnd index pos stack trail with
      | .matched => (true, memo)
      | .stuck stack trail => (Loop.backtracking memo stack trail).outcome fs v requireEnd := by
  rw [search]
  split
  · rename_i h
    rw [h]
  · rename_i stack₁ trail₁ h
    rw [h]
    simp only [Loop.outcome]
    split <;> rename_i h' <;> rw [h']

/-- An iteration changes where the loops stand, not what the call returns. -/
theorem Loop.outcome_step (s : Loop) :
    (s.step fs v requireEnd).outcome fs v requireEnd = s.outcome fs v requireEnd := by
  cases s with
  | advancing memo stack trail index pos =>
    simp only [Loop.step]
    rw [Loop.outcome, search_eq, advance_eq_round]
    rcases advanceRound fs memo v requireEnd index pos stack trail with
      ⟨index, pos, stack, trail⟩ | (_ | ⟨stack, trail⟩)
    case next => exact search_eq stack trail index pos
    all_goals rfl
  | backtracking memo stack trail =>
    simp only [Loop.step]
    rw [Loop.outcome, backtrack_eq_round]
    rcases backtrackRound fs v memo trail stack with
      ⟨memo, stack, trail⟩ | (⟨memo⟩ | ⟨memo, stack, trail, index, pos⟩) <;> rfl
  | returned answer memo => rfl

/-! ## §3 Each iteration lowers the potential -/

/-- Going round the advance loop again enters one state of the search tree: the states left to
explore lose it, and a pushed choice point keeps only its untried options. -/
theorem advanceRound_next_size {index pos i p : Nat} {stack s : List (Choice × Nat)}
    {trail t : List (Nat × Nat)}
    (h : advanceRound fs memo v requireEnd index pos stack trail = .next i p s t) :
    v.searchSize (fs.drop i) p + pendingSize v fs s <
        v.searchSize (fs.drop index) pos + pendingSize v fs stack ∧
      s.length ≤ stack.length + 1 := by
  unfold advanceRound at h
  split at h
  case isFalse => split at h <;> cases h
  case isTrue hi =>
    have hsize := searchSize_drop (v := v) hi pos
    split at h
    · cases h
    · dsimp only at h
      split at h
      -- a literal and a class both consume bytes that the fragment still counts
      case h_1 _ hf | h_2 _ hf =>
        split at h
        · obtain ⟨rfl, rfl, rfl, -⟩ := AdvanceRound.next.inj h
          rw [hf, View.searchSize, if_pos ‹_›] at hsize
          omega
        · cases h
      case h_3 lo hi' hf =>
        split at h
        · cases h
        · rename_i hroom
          split at h
          · cases h
          · obtain ⟨rfl, rfl, rfl, -⟩ := AdvanceRound.next.inj h
            rw [hf, searchSize_gap hroom] at hsize
            simp only [pendingSize_cons, List.length_cons]
            omega
      case h_4 branches hf =>
        split at h
        · rename_i b e hfirst
          obtain ⟨rfl, rfl, rfl, -⟩ := AdvanceRound.next.inj h
          rw [hf, searchSize_alternatives (List.getElem?_eq_some_iff.2 ⟨hi, hf⟩) hfirst] at hsize
          simp only [pendingSize_cons, List.length_cons]
          omega
        · cases h

/-- Leaving the advance loop for the backtrack loop leaves the stack as it was. -/
theorem advanceRound_stuck {index pos : Nat} {stack s : List (Choice × Nat)}
    {trail t : List (Nat × Nat)}
    (h : advanceRound fs memo v requireEnd index pos stack trail = .exit (.stuck s t)) :
    s = stack := by
  unfold advanceRound at h
  split at h
  case isFalse => split at h <;> cases h <;> rfl
  case isTrue =>
    split at h
    · cases h; rfl
    · dsimp only at h
      split at h
      case h_3 =>
        split at h
        · cases h; rfl
        · split at h <;> cases h <;> rfl
      -- a literal, a class and an alternation give up with the stack they were handed
      case h_1 | h_2 | h_4 => split at h <;> cases h <;> rfl

/-- Going round the backtrack loop again has popped a choice point. -/
theorem backtrackRound_next {trail t : List (Nat × Nat)} {stack s : List (Choice × Nat)}
    {m : Memo} (h : backtrackRound fs v memo trail stack = .next m s t) :
    ∃ c, stack = c :: s := by
  match stack, h with
  | (.gap g base lo taken maxTake, mark) :: stack, h =>
    simp only [backtrackRound] at h
    split at h
    · cases h
    · exact ⟨_, by rw [(BacktrackRound.next.inj h).2.1]⟩
  | (.alternative a offset next, mark) :: stack, h =>
    simp only [backtrackRound] at h
    split at h
    · split at h
      · cases h
      · exact ⟨_, by rw [(BacktrackRound.next.inj h).2.1]⟩
    · exact ⟨_, by rw [(BacktrackRound.next.inj h).2.1]⟩

/-- Resuming a choice point hands one of its pending subtrees to the advance loop, and puts the
choice point back with the options after it. -/
theorem backtrackRound_resume_size {trail t : List (Nat × Nat)} {stack s : List (Choice × Nat)}
    {m : Memo} {i p : Nat}
    (h : backtrackRound fs v memo trail stack = .exit (.resume m s t i p)) :
    v.searchSize (fs.drop i) p + pendingSize v fs s ≤ pendingSize v fs stack ∧
      s.length = stack.length := by
  match stack, h with
  | (.gap g base lo taken maxTake, mark) :: stack, h =>
    simp only [backtrackRound] at h
    split at h
    · rename_i hlt
      obtain ⟨-, rfl, -, rfl, rfl⟩ := Resume.resume.inj (BacktrackRound.exit.inj h)
      refine ⟨?_, by simp⟩
      simp only [pendingSize_cons, pending_gap_succ hlt]
      omega
    · cases h
  | (.alternative a offset next, mark) :: stack, h =>
    simp only [backtrackRound] at h
    split at h
    · rename_i branches hf
      split at h
      · rename_i b e hfirst
        obtain ⟨-, rfl, -, rfl, rfl⟩ := Resume.resume.inj (BacktrackRound.exit.inj h)
        refine ⟨?_, by simp⟩
        simp only [pendingSize_cons, pending_alternative_next hf hfirst]
        omega
      · cases h
    · cases h

namespace Loop

/-- Twice the states of the search tree left to explore, plus one for each choice point on the
stack (each is popped once more) and one while backtracking. -/
def potential (fs : List Fragment) (v : View) : Loop → Nat
  | advancing _ stack _ index pos =>
    2 * (v.searchSize (fs.drop index) pos + pendingSize v fs stack) + stack.length
  | backtracking _ stack _ => 2 * pendingSize v fs stack + stack.length + 1
  | returned _ _ => 0

theorem potential_step_advancing (memo : Memo) (stack : List (Choice × Nat))
    (trail : List (Nat × Nat)) (index pos : Nat) :
    ((advancing memo stack trail index pos).step fs v requireEnd).potential fs v <
      (advancing memo stack trail index pos).potential fs v := by
  have hpos := v.searchSize_pos (fs.drop index) pos
  simp only [step]
  split
  · rename_i i p s t h
    have := advanceRound_next_size h
    simp only [potential]
    omega
  · simp only [potential]
    omega
  · rename_i s t h
    rw [advanceRound_stuck h]
    simp only [potential]
    omega

theorem potential_step_backtracking (memo : Memo) (stack : List (Choice × Nat))
    (trail : List (Nat × Nat)) :
    ((backtracking memo stack trail).step fs v requireEnd).potential fs v <
      (backtracking memo stack trail).potential fs v := by
  simp only [step]
  split
  · rename_i m s t h
    obtain ⟨c, rfl⟩ := backtrackRound_next h
    simp only [potential, pendingSize_cons, List.length_cons]
    omega
  · simp only [potential]
    omega
  · rename_i m s t i p h
    have := backtrackRound_resume_size h
    simp only [potential]
    omega

/-! ## §4 The loops return -/

/-- As many iterations as the potential of a state bring the loops to the return, with what the
call returns from that state. -/
theorem iterate_step_of_potential_le {n : Nat} {s : Loop} (h : s.potential fs v ≤ n) :
    (step fs v requireEnd)^[n] s =
      returned (s.outcome fs v requireEnd).1 (s.outcome fs v requireEnd).2 := by
  induction n generalizing s with
  | zero =>
    -- only a returned call has no potential left
    cases s with
    | advancing memo stack trail index pos =>
      have := v.searchSize_pos (fs.drop index) pos
      simp only [potential] at h
      omega
    | backtracking => simp only [potential] at h; omega
    | returned answer memo => rfl
  | succ n ih =>
    rw [Function.iterate_succ_apply, ← outcome_step s]
    apply ih
    -- an iteration lowers the potential, unless the call has returned
    cases s with
    | advancing memo stack trail index pos =>
      exact Nat.le_of_lt_succ (Nat.lt_of_lt_of_le (potential_step_advancing ..) h)
    | backtracking memo stack trail =>
      exact Nat.le_of_lt_succ (Nat.lt_of_lt_of_le (potential_step_backtracking ..) h)
    | returned answer memo => exact Nat.zero_le n

end Loop

/-- A call returns within twice as many iterations of its loops as the naive search tree below
its start has states, whatever earlier calls left in the memo, and it returns what
`Backtracker.matchAt` returns. -/
theorem loops_return_within_bound (bt : Backtracker) (v : View) (start : Nat)
    (requireEnd : Bool) :
    (Loop.step bt.fragments v requireEnd)^[2 * v.searchSize bt.fragments start]
        (Loop.enter bt.memo v start) =
      .returned (bt.matchAt v start requireEnd).1 (bt.matchAt v start requireEnd).2.memo := by
  have hbound : (Loop.enter bt.memo v start).potential bt.fragments v ≤
      2 * v.searchSize bt.fragments start := by
    unfold Loop.enter
    split <;> simp [Loop.potential]
  rw [Loop.iterate_step_of_potential_le hbound]
  unfold Loop.enter Backtracker.matchAt
  split <;> rfl

-- the gap is tried at each of its four takes before the call fails: the call returns after
-- eleven iterations, one fewer than the bound
example :
    (Loop.step [.literal [65], .gap 0 none, .literal [68]] ⟨#[65, 67, 66, 67], .forward⟩ false)^[
        2 * View.searchSize ⟨#[65, 67, 66, 67], .forward⟩ [.literal [65], .gap 0 none, .literal [68]] 0]
      (Loop.enter ⟨[], [none, none, none]⟩ ⟨#[65, 67, 66, 67], .forward⟩ 0) =
      .returned false ⟨[(2, 1), (2, 2), (2, 3), (2, 4)], [none, some 1, none]⟩ := by
  decide +kernel

end ContainerProbe
