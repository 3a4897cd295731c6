import ContainerProbe.Pattern.Fragment

/-!
# Backtracking over fragments

The backtracking matcher decides whether fragments match a view of the input from a start
offset. Gaps and alternatives are choice points, kept on an explicit stack rather than the call
stack: a gap tries its shortest take first, alternatives their first matching branch. When a
fragment fails, the most recent choice point with an untried option is resumed.

Two memos are kept across calls on the same view and end requirement:

* the states `(fragment index, offset)` entered just after a choice point and proven to fail.
  A state is put on a trail when it is entered; when a choice point is popped, every state
  entered since it was pushed has had its whole subtree explored, so that part of the trail is
  recorded as failed;
* for each gap that ran to the end of the input, a floor: the lowest offset after the gap from
  which every continuation is known to fail.

Each round of advancing and backtracking ends, and so does the search: the naive search tree
below the current state, together with the trees below the untried options of the stack, loses
at least one node per round (`search`'s measure).

## Main definitions

* `View`: the input read forwards, or backwards from its last byte.
* `advance`, `backtrack`: the two inner loops; `search`: the outer loop.
* `Backtracker.matchAt`, `Backtracker.matchEach`: one call, and calls in turn sharing the memos;
  `Backtracker.anyMatch`: calls in turn until one matches.
* `advanceRound`, `backtrackRound`: the bodies of the two inner loops; `Loop.step`: one iteration
  of the loop that runs, from the state `Loop` of a call.
-/

namespace ContainerProbe

/-! ## §1 Views -/

/-- The direction in which the input is read. -/
inductive Direction where
  | forward
  /-- Offset 0 is the last byte of the input. -/
  | backward
  deriving DecidableEq, Repr

/-- The input as the matcher sees it. -/
structure View where
  /-- The bytes of the input, first to last. -/
  data : Array UInt8
  /-- The direction they are read in. -/
  direction : Direction
  deriving DecidableEq, Repr

namespace View

/-- The number of bytes in view. -/
def len (v : View) : Nat := v.data.size

/-- The byte at an offset, counted in the view's direction. -/
def byte (v : View) (offset : Nat) : UInt8 :=
  match v.direction with
  | .forward => v.data.getD offset 0
  | .backward => v.data.getD (v.len - 1 - offset) 0

/-- Whether the bytes stand in the view from an offset on. -/
def matchesLiteral (v : View) (offset : Nat) (bytes : List UInt8) : Bool :=
  if v.len - offset < bytes.length then false
  else
    match v.direction with
    | .forward => v.data.extract offset (offset + bytes.length) == bytes.toArray
    | .backward => bytes.zipIdx.all fun (b, k) => v.byte (offset + k) == b

/-- The end of a fixed run of pieces matched from an offset, if it matches. -/
def matchFixed (v : View) (offset : Nat) : List Piece → Option Nat
  | [] => some offset
  | .literal bytes :: run =>
    if v.matchesLiteral offset bytes then v.matchFixed (offset + bytes.length) run else none
  | .byteSet c :: run =>
    if offset < v.len ∧ c.accepts (v.byte offset) = true then v.matchFixed (offset + 1) run
    else none

/-- The first of the runs that matches from an offset, numbered from `index`, with its end. -/
def firstMatch (v : View) (offset : Nat) : Nat → List (List Piece) → Option (Nat × Nat)
  | _, [] => none
  | index, run :: runs =>
    match v.matchFixed offset run with
    | some e => some (index, e)
    | none => v.firstMatch offset (index + 1) runs

/-- The first branch from number `next` on that matches from an offset, with its end. -/
def firstBranch (v : View) (branches : List (List Piece)) (offset next : Nat) :
    Option (Nat × Nat) :=
  v.firstMatch offset next (branches.drop next)

/-- The most bytes a gap with upper bound `hi` may take from an offset. -/
def maxTake (v : View) (hi : Option Nat) (pos : Nat) : Nat :=
  match hi with
  | some m => min m (v.len - pos)
  | none => v.len - pos

/-- The number of states the naive search enters from the fragments `fs` at an offset: the
state itself, and those below each way its first fragment can match. A gap whose least bound
exceeds its greatest is counted with its least take, as the matcher takes it. -/
def searchSize (v : View) : List Fragment → Nat → Nat
  | [], _ => 1
  | .literal bytes :: fs, pos =>
    1 + if v.matchesLiteral pos bytes then v.searchSize fs (pos + bytes.length) else 0
  | .byteSet c :: fs, pos =>
    1 + if pos < v.len ∧ c.accepts (v.byte pos) = true then v.searchSize fs (pos + 1) else 0
  | .gap lo hi :: fs, pos =>
    1 + if v.len - pos < lo then 0
      else Size.total ((List.range' (pos + lo) (v.maxTake hi pos - lo + 1)).map (v.searchSize fs))
  | .alternatives branches :: fs, pos =>
    1 + Size.total ((branches.filterMap (v.matchFixed pos)).map (v.searchSize fs))

end View

/-! ## §2 Choice points and memos -/

/-- A choice point. -/
inductive Choice where
  /-- The gap at `index`, from offset `base`, taking `taken` of `lo ..= maxTake` bytes. -/
  | gap (index base lo taken maxTake : Nat)
  /-- The alternatives at `index`, from `offset`, to go on with branch `nextBranch`. -/
  | alternative (index offset nextBranch : Nat)
  deriving DecidableEq, Repr

/-- What the matcher has learnt about failing states. -/
structure Memo where
  /-- States `(fragment index, offset)` known to fail. -/
  failed : List (Nat × Nat)
  /-- For each gap that ran to the end of the input, the lowest offset after it from which
  every continuation fails; `none` while there is none (the largest size, which no offset
  reaches). -/
  floors : List (Option Nat)
  deriving DecidableEq, Repr

namespace Memo

/-- Records states as failed. -/
def record (memo : Memo) (states : List (Nat × Nat)) : Memo :=
  { memo with failed := memo.failed ++ states }

/-- Whether the gap at `index` has a floor at or below `offset`. -/
def floorReached (memo : Memo) (index offset : Nat) : Bool :=
  match memo.floors.getD index none with
  | some f => decide (f ≤ offset)
  | none => false

/-- Lowers the floor of the gap at `index` to `offset`. -/
def lowerFloor (memo : Memo) (index offset : Nat) : Memo :=
  let floor := match memo.floors.getD index none with
    | some f => min f offset
    | none => offset
  { memo with floors := memo.floors.set index (some floor) }

end Memo

/-- Matcher state for one pattern over one input. -/
structure Backtracker where
  /-- The fragments to match. -/
  fragments : List Fragment
  /-- What earlier calls learnt. -/
  memo : Memo
  deriving DecidableEq, Repr

/-- Whether the fragment at `index` directly follows a gap or alternatives. -/
def followsChoice (fs : List Fragment) : Nat → Bool
  | 0 => false
  | i + 1 =>
    match fs[i]? with
    | some (.gap _ _) | some (.alternatives _) => true
    | _ => false

/-! ## §3 The two inner loops -/

/-- How advancing ends. -/
inductive Advance where
  /-- Every fragment matched and the end is where the caller asks. -/
  | matched
  /-- A fragment failed, with the stack and the trail as they then are. -/
  | stuck (stack : List (Choice × Nat)) (trail : List (Nat × Nat))

/-- Matches fragments from `index` on at `pos`, pushing a choice point, with the trail's length
as its mark, for each gap and alternatives met, until every fragment matched or one failed. -/
def advance (fs : List Fragment) (memo : Memo) (v : View) (requireEnd : Bool) (index pos : Nat)
    (stack : List (Choice × Nat)) (trail : List (Nat × Nat)) : Advance :=
  if h : index < fs.length then
    if followsChoice fs index ∧ (index, pos) ∈ memo.failed then .stuck stack trail
    else
      let trail := if followsChoice fs index then trail ++ [(index, pos)] else trail
      match fs[index] with
      | .literal bytes =>
        if v.matchesLiteral pos bytes then
          advance fs memo v requireEnd (index + 1) (pos + bytes.length) stack trail
        else .stuck stack trail
      | .byteSet c =>
        if pos < v.len ∧ c.accepts (v.byte pos) = true then
          advance fs memo v requireEnd (index + 1) (pos + 1) stack trail
        else .stuck stack trail
      | .gap lo hi =>
        if v.len - pos < lo then .stuck stack trail
        else
          let maxTake := v.maxTake hi pos
          -- every take ends at or past the floor: the continuation is known to fail
          if maxTake = v.len - pos ∧ memo.floorReached index (pos + lo) = true then
            .stuck stack trail
          else
            advance fs memo v requireEnd (index + 1) (pos + lo)
              ((.gap index pos lo lo maxTake, trail.length) :: stack) trail
      | .alternatives branches =>
        match v.firstBranch branches pos 0 with
        | some (b, e) =>
          advance fs memo v requireEnd (index + 1) e
            ((.alternative index pos (b + 1), trail.length) :: stack) trail
        | none => .stuck stack trail
  else if !requireEnd || pos == v.len then .matched
  else .stuck stack trail
termination_by fs.length - index

/-- How backtracking ends. -/
inductive Resume where
  /-- No choice point has an untried option. -/
  | exhausted (memo : Memo)
  /-- A choice point took its next option: match on from `index` at `pos`. -/
  | resume (memo : Memo) (stack : List (Choice × Nat)) (trail : List (Nat × Nat)) (index pos : Nat)

/-- Pops choice points until one has an untried option, recording as failed the part of the
trail entered since each popped point was pushed, and lowering a gap's floor when the gap ran
to the end of the input with every take failing. -/
def backtrack (fs : List Fragment) (v : View) (memo : Memo) (trail : List (Nat × Nat)) :
    List (Choice × Nat) → Resume
  | [] => .exhausted (memo.record trail)
  | (choice, mark) :: stack =>
    let memo := memo.record (trail.drop mark)
    let trail := trail.take mark
    match choice with
    | .gap g base lo taken maxTake =>
      if taken < maxTake then
        .resume memo ((.gap g base lo (taken + 1) maxTake, trail.length) :: stack) trail (g + 1)
          (base + (taken + 1))
      else
        let memo := if base + maxTake = v.len then memo.lowerFloor g (base + lo) else memo
        backtrack fs v memo trail stack
    | .alternative a offset next =>
      match fs[a]? with
      | some (.alternatives branches) =>
        match v.firstBranch branches offset next with
        | some (b, e) =>
          .resume memo ((.alternative a offset (b + 1), trail.length) :: stack) trail (a + 1) e
        | none => backtrack fs v memo trail stack
      | _ => backtrack fs v memo trail stack

/-! ## §4 The search ends -/

/-- The number of states the naive search enters below the options of a choice point not yet
tried. -/
def Choice.pending (v : View) (fs : List Fragment) : Choice → Nat
  | .gap g base _ taken maxTake =>
    Size.total
      ((List.range' (base + taken + 1) (maxTake - taken)).map (v.searchSize (fs.drop (g + 1))))
  | .alternative a offset next =>
    match fs[a]? with
    | some (.alternatives branches) =>
      Size.total (((branches.drop next).filterMap (v.matchFixed offset)).map
        (v.searchSize (fs.drop (a + 1))))
    | _ => 0

/-- The states below the untried options of a whole stack. -/
def pendingSize (v : View) (fs : List Fragment) (stack : List (Choice × Nat)) : Nat :=
  Size.total (stack.map fun c => c.1.pending v fs)

section Measure

variable {v : View} {fs : List Fragment}

theorem View.searchSize_pos (v : View) (fs : List Fragment) (pos : Nat) :
    0 < v.searchSize fs pos := by
  cases fs with
  | nil => simp [View.searchSize]
  | cons f fs => cases f <;> simp only [View.searchSize] <;> omega

@[simp] theorem pendingSize_nil : pendingSize v fs [] = 0 := rfl

@[simp] theorem pendingSize_cons (c : Choice × Nat) (stack : List (Choice × Nat)) :
    pendingSize v fs (c :: stack) = c.1.pending v fs + pendingSize v fs stack := by
  simp [pendingSize]

/-- The first match is numbered from where the search started. -/
theorem View.le_of_firstMatch {offset index b e : Nat} {runs : List (List Piece)}
    (h : v.firstMatch offset index runs = some (b, e)) : index ≤ b := by
  induction runs generalizing index with
  | nil => simp [View.firstMatch] at h
  | cons run runs ih =>
    unfold View.firstMatch at h
    split at h
    · obtain ⟨rfl, -⟩ := Prod.mk.inj (Option.some.inj h)
      exact Nat.le_refl _
    · exact Nat.le_of_succ_le (ih h)

/-- The runs before the first match do not match, so the matching runs are the first match's
end and those of the runs after it. -/
theorem View.filterMap_of_firstMatch {offset index b e : Nat} {runs : List (List Piece)}
    (h : v.firstMatch offset index runs = some (b, e)) :
    runs.filterMap (v.matchFixed offset) =
      e :: (runs.drop (b + 1 - index)).filterMap (v.matchFixed offset) := by
  induction runs generalizing index with
  | nil => simp [View.firstMatch] at h
  | cons run runs ih =>
    unfold View.firstMatch at h
    split at h
    · rename_i e' he'
      obtain ⟨rfl, rfl⟩ := Prod.mk.inj (Option.some.inj h)
      simp [he']
    · rename_i hnone
      have hb := View.le_of_firstMatch h
      rw [List.filterMap_cons, hnone, ih h]
      have hk : b + 1 - index = (b + 1 - (index + 1)) + 1 := by omega
      rw [hk, List.drop_succ_cons]

/-- The matching branches from `next` on: the first one's end, then those after it. -/
theorem View.filterMap_of_firstBranch {branches : List (List Piece)} {offset next b e : Nat}
    (h : v.firstBranch branches offset next = some (b, e)) :
    (branches.drop next).filterMap (v.matchFixed offset) =
      e :: (branches.drop (b + 1)).filterMap (v.matchFixed offset) := by
  rw [View.filterMap_of_firstMatch h, List.drop_drop]
  congr 3
  have := View.le_of_firstMatch h
  omega

/-- A state is counted once before its first fragment is matched. -/
theorem searchSize_drop {index : Nat} (h : index < fs.length) (pos : Nat) :
    v.searchSize (fs.drop index) pos = v.searchSize (fs[index] :: fs.drop (index + 1)) pos := by
  rw [List.drop_eq_getElem_cons h]

/-- Pushing a gap: its least take leads on, the longer ones stay pending. -/
theorem searchSize_gap {lo pos g : Nat} {hi : Option Nat} (hroom : ¬v.len - pos < lo) :
    v.searchSize (.gap lo hi :: fs.drop (g + 1)) pos =
      1 + v.searchSize (fs.drop (g + 1)) (pos + lo) +
        (Choice.gap g pos lo lo (v.maxTake hi pos)).pending v fs := by
  rw [View.searchSize, if_neg hroom, List.range'_succ, Choice.pending, List.map_cons,
    Size.total_cons]
  omega

/-- Pushing alternatives: the first matching branch leads on, the later ones stay pending. -/
theorem searchSize_alternatives {branches : List (List Piece)} {pos a b e : Nat}
    (hf : fs[a]? = some (.alternatives branches)) (h : v.firstBranch branches pos 0 = some (b, e)) :
    v.searchSize (.alternatives branches :: fs.drop (a + 1)) pos =
      1 + v.searchSize (fs.drop (a + 1)) e + (Choice.alternative a pos (b + 1)).pending v fs := by
  have hall := View.filterMap_of_firstBranch h
  rw [List.drop_zero] at hall
  rw [View.searchSize, hall, Choice.pending, hf]
  simp only [List.map_cons, Size.total_cons]
  omega

theorem advance_stuck_size_of_eq {stack stack' : List (Choice × Nat)}
    {trail trail' : List (Nat × Nat)} (h : Advance.stuck stack trail = .stuck stack' trail')
    (index pos : Nat) :
    pendingSize v fs stack' < v.searchSize (fs.drop index) pos + pendingSize v fs stack := by
  obtain ⟨rfl, -⟩ := Advance.stuck.inj h
  have := v.searchSize_pos (fs.drop index) pos
  omega

/-- Advancing leaves fewer states to explore than it started with: the state it stopped at is
no longer counted, and each choice point it pushed counts only its untried options. -/
theorem advance_stuck_size {memo : Memo} {requireEnd : Bool} {index pos : Nat}
    {stack stack' : List (Choice × Nat)} {trail trail' : List (Nat × Nat)}
    (h : advance fs memo v requireEnd index pos stack trail = .stuck stack' trail') :
    pendingSize v fs stack' < v.searchSize (fs.drop index) pos + pendingSize v fs stack := by
  fun_induction advance fs memo v requireEnd index pos stack trail
  case case2 index pos stack _ hi _ _ bytes hf hlit ih =>
    have hsize := searchSize_drop (v := v) hi pos
    rw [hf, View.searchSize, if_pos hlit] at hsize
    have := ih h
    omega
  case case4 index pos stack _ hi _ _ c hf hbyte ih =>
    have hsize := searchSize_drop (v := v) hi pos
    rw [hf, View.searchSize, if_pos hbyte] at hsize
    have := ih h
    omega
  case case8 index pos stack _ hi _ _ lo hi' hf hroom mt _ ih =>
    have hsize := searchSize_drop (v := v) hi pos
    rw [hf, searchSize_gap hroom] at hsize
    have := ih h
    simp only [pendingSize_cons, mt] at this
    omega
  case case9 index pos stack _ hi _ _ branches hf b e hfirst ih =>
    have hsize := searchSize_drop (v := v) hi pos
    rw [hf, searchSize_alternatives (List.getElem?_eq_some_iff.2 ⟨hi, hf⟩) hfirst] at hsize
    have := ih h
    simp only [pendingSize_cons] at this
    omega
  case case11 => cases h
  case case1 | case3 | case5 | case6 | case7 | case10 | case12 => exact advance_stuck_size_of_eq h _ _

/-- Resuming a gap: its next take leads on, the longer ones stay pending. -/
theorem pending_gap_succ {g base lo taken maxTake : Nat} (h : taken < maxTake) :
    (Choice.gap g base lo taken maxTake).pending v fs =
      v.searchSize (fs.drop (g + 1)) (base + (taken + 1)) +
        (Choice.gap g base lo (taken + 1) maxTake).pending v fs := by
  obtain ⟨k, hk⟩ : ∃ k, maxTake - taken = k + 1 := ⟨maxTake - taken - 1, by omega⟩
  have hk' : maxTake - (taken + 1) = k := by omega
  simp only [Choice.pending, hk, hk', List.range'_succ, List.map_cons, Size.total_cons,
    Nat.add_assoc]

/-- Resuming alternatives: the next matching branch leads on, the ones after it stay pending. -/
theorem pending_alternative_next {a offset next b e : Nat} {branches : List (List Piece)}
    (hf : fs[a]? = some (.alternatives branches))
    (h : v.firstBranch branches offset next = some (b, e)) :
    (Choice.alternative a offset next).pending v fs =
      v.searchSize (fs.drop (a + 1)) e + (Choice.alternative a offset (b + 1)).pending v fs := by
  simp only [Choice.pending, hf, View.filterMap_of_firstBranch h, List.map_cons, Size.total_cons]

/-- Backtracking resumes at a state whose tree, with the options left pending, was pending
before. -/
theorem backtrack_resume_size {memo memo' : Memo} {trail trail' : List (Nat × Nat)}
    {stack stack' : List (Choice × Nat)} {index pos : Nat}
    (h : backtrack fs v memo trail stack = .resume memo' stack' trail' index pos) :
    v.searchSize (fs.drop index) pos + pendingSize v fs stack' ≤ pendingSize v fs stack := by
  fun_induction backtrack fs v memo trail stack
  case case1 => cases h
  case case2 _ _ _ stack _ _ g base lo taken maxTake hlt =>
    obtain ⟨-, rfl, -, rfl, rfl⟩ := Resume.resume.inj h
    simp only [pendingSize_cons, pending_gap_succ hlt]
    omega
  case case4 _ _ _ stack _ _ a offset next branches hf b e hfirst =>
    obtain ⟨-, rfl, -, rfl, rfl⟩ := Resume.resume.inj h
    simp only [pendingSize_cons, pending_alternative_next hf hfirst]
    omega
  case case3 | case5 | case6 =>
    -- a popped choice point with no option left: what it counted is dropped
    rename_i ih
    have := ih h
    simp only [pendingSize_cons]
    omega

end Measure

/-! ## §5 Matching -/

-- the two match equations are read only by the termination proof
set_option linter.unusedVariables false in
/-- Advances, and backtracks whenever a fragment fails, until every fragment matched or no
choice point has an option left; returns the answer and the memo as it then is. -/
def search (fs : List Fragment) (v : View) (requireEnd : Bool) (memo : Memo)
    (stack : List (Choice × Nat)) (trail : List (Nat × Nat)) (index pos : Nat) : Bool × Memo :=
  match h : advance fs memo v requireEnd index pos stack trail with
  | .matched => (true, memo)
  | .stuck stack₁ trail₁ =>
    match h' : backtrack fs v memo trail₁ stack₁ with
    | .exhausted memo₁ => (false, memo₁)
    | .resume memo₁ stack₂ trail₂ index₂ pos₂ =>
      search fs v requireEnd memo₁ stack₂ trail₂ index₂ pos₂
termination_by v.searchSize (fs.drop index) pos + pendingSize v fs stack
decreasing_by
  have := advance_stuck_size h
  have := backtrack_resume_size h'
  omega

namespace Backtracker

/-- A backtracker that has learnt nothing yet. -/
def new (fragments : List Fragment) : Backtracker :=
  ⟨fragments, ⟨[], List.replicate fragments.length none⟩⟩

/-- Whether the fragments match from `start`, to the end of the view if `requireEnd`; the
backtracker keeps what it learnt for later calls on the same view and end requirement. -/
def matchAt (bt : Backtracker) (v : View) (start : Nat) (requireEnd : Bool) :
    Bool × Backtracker :=
  if v.len < start then (false, bt)
  else
    let (answer, memo) := search bt.fragments v requireEnd bt.memo [] [] 0 start
    (answer, { bt with memo })

/-- The answers of one backtracker from each start in turn, sharing what it learns. -/
def matchEach (bt : Backtracker) (v : View) (requireEnd : Bool) :
    List Nat → List Bool × Backtracker
  | [] => ([], bt)
  | start :: starts =>
    let (answer, bt) := bt.matchAt v start requireEnd
    let (answers, bt) := bt.matchEach v requireEnd starts
    (answer :: answers, bt)

/-- Whether the fragments match from one of the starts, tried in turn by one backtracker that
keeps what each call learns; no start after the first that matches is tried. -/
def anyMatch (bt : Backtracker) (v : View) (requireEnd : Bool) : List Nat → Bool
  | [] => false
  | start :: starts =>
    let (answer, bt) := bt.matchAt v start requireEnd
    answer || bt.anyMatch v requireEnd starts

end Backtracker

/-! ## §6 One iteration at a time

The same loops taken one iteration at a time, as a state machine: its state says which loop runs
and what its local variables hold, and one transition is one iteration of the loop that runs. A
call that has returned stays where it is. -/

/-- What one iteration of the advance loop does. -/
inductive AdvanceRound where
  /-- Go round again, at the fragment `index` from `pos`. -/
  | next (index pos : Nat) (stack : List (Choice × Nat)) (trail : List (Nat × Nat))
  /-- Leave the loop. -/
  | exit (result : Advance)

/-- One iteration of the advance loop: match the fragment at `index` from `pos`, pushing a
choice point for a gap or alternatives. -/
def advanceRound (fs : List Fragment) (memo : Memo) (v : View) (requireEnd : Bool)
    (index pos : Nat) (stack : List (Choice × Nat)) (trail : List (Nat × Nat)) : AdvanceRound :=
  if h : index < fs.length then
    if followsChoice fs index ∧ (index, pos) ∈ memo.failed then .exit (.stuck stack trail)
    else
      let trail := if followsChoice fs index then trail ++ [(index, pos)] else trail
      match fs[index] with
      | .literal bytes =>
        if v.matchesLiteral pos bytes then .next (index + 1) (pos + bytes.length) stack trail
        else .exit (.stuck stack trail)
      | .byteSet c =>
        if pos < v.len ∧ c.accepts (v.byte pos) = true then .next (index + 1) (pos + 1) stack trail
        else .exit (.stuck stack trail)
      | .gap lo hi =>
        if v.len - pos < lo then .exit (.stuck stack trail)
        else
          let maxTake := v.maxTake hi pos
          if maxTake = v.len - pos ∧ memo.floorReached index (pos + lo) = true then
            .exit (.stuck stack trail)
          else .next (index + 1) (pos + lo) ((.gap index pos lo lo maxTake, trail.length) :: stack) trail
      | .alternatives branches =>
        match v.firstBranch branches pos 0 with
        | some (b, e) => .next (index + 1) e ((.alternative index pos (b + 1), trail.length) :: stack) trail
        | none => .exit (.stuck stack trail)
  else if !requireEnd || pos == v.len then .exit .matched
  else .exit (.stuck stack trail)

/-- What one iteration of the backtrack loop does. -/
inductive BacktrackRound where
  /-- The popped choice point had no option left: pop the next one. -/
  | next (memo : Memo) (stack : List (Choice × Nat)) (trail : List (Nat × Nat))
  /-- Leave the loop. -/
  | exit (result : Resume)

/-- One iteration of the backtrack loop: pop the most recent choice point and take its next
option if it has one. -/
def backtrackRound (fs : List Fragment) (v : View) (memo : Memo) (trail : List (Nat × Nat)) :
    List (Choice × Nat) → BacktrackRound
  | [] => .exit (.exhausted (memo.record trail))
  | (choice, mark) :: stack =>
    let memo := memo.record (trail.drop mark)
    let trail := trail.take mark
    match choice with
    | .gap g base lo taken maxTake =>
      if taken < maxTake then
        .exit (.resume memo ((.gap g base lo (taken + 1) maxTake, trail.length) :: stack) trail
          (g + 1) (base + (taken + 1)))
      else
        let memo := if base + maxTake = v.len then memo.lowerFloor g (base + lo) else memo
        .next memo stack trail
    | .alternative a offset next =>
      match fs[a]? with
      | some (.alternatives branches) =>
        match v.firstBranch branches offset next with
        | some (b, e) =>
          .exit (.resume memo ((.alternative a offset (b + 1), trail.length) :: stack) trail (a + 1) e)
        | none => .next memo stack trail
      | _ => .next memo stack trail

/-- Where the loops of one call stand between two iterations. -/
inductive Loop where
  /-- In the advance loop, at the fragment `index` from `pos`. -/
  | advancing (memo : Memo) (stack : List (Choice × Nat)) (trail : List (Nat × Nat)) (index pos : Nat)
  /-- In the backtrack loop, about to pop a choice point. -/
  | backtracking (memo : Memo) (stack : List (Choice × Nat)) (trail : List (Nat × Nat))
  /-- The call returned its answer, leaving the memo behind. -/
  | returned (answer : Bool) (memo : Memo)
  deriving DecidableEq, Repr

namespace Loop

/-- One iteration of the loop that runs; leaving the advance loop enters the backtrack loop,
and resuming a choice point enters the advance loop again. -/
def step (fs : List Fragment) (v : View) (requireEnd : Bool) : Loop → Loop
  | advancing memo stack trail index pos =>
    match advanceRound fs memo v requireEnd index pos stack trail with
    | .next index pos stack trail => advancing memo stack trail index pos
    | .exit .matched => returned true memo
    | .exit (.stuck stack trail) => backtracking memo stack trail
  | backtracking memo stack trail =>
    match backtrackRound fs v memo trail stack with
    | .next memo stack trail => backtracking memo stack trail
    | .exit (.exhausted memo) => returned false memo
    | .exit (.resume memo stack trail index pos) => advancing memo stack trail index pos
  | returned answer memo => returned answer memo

/-- Where a call from `start` stands before the first iteration: a start past the end returns
at once. -/
def enter (memo : Memo) (v : View) (start : Nat) : Loop :=
  if v.len < start then returned false memo else advancing memo [] [] 0 start

end Loop

end ContainerProbe
