import Mathlib
import ContainerProbe.Pattern.Backtrack
import ContainerProbe.Proofs.Runs

/-!
# What the backtracker's view reads

The backtracker reads its input through a view: the bytes first to last, or last to first. This
module gives the bytes the view reads as a list (`View.bytes`) and says what each of the view's
tests decides about that list: a literal test, a fixed run of pieces, the first matching
branch of alternatives. It then states the matching relation from an offset of the view
(`View.MatchesFrom`) and how it splits at its first fragment.

## Main statements

* `View.matchesLiteral_iff`, `View.matchFixed_eq_some_iff`: the tests read exactly the bytes
  at the offset, in either direction.
* `View.firstBranch_eq_some`, `View.firstBranch_eq_none`: the first matching branch.
* `View.matchesFrom_cons`: the first fragment matches a run read from the offset, and the
  rest match from after it.
-/

namespace ContainerProbe

/-! ## §1 Reading the view -/

namespace View

/-- The bytes in the order the view reads them. -/
def bytes (v : View) : List UInt8 :=
  match v.direction with
  | .forward => v.data.toList
  | .backward => v.data.toList.reverse

@[simp] theorem length_bytes (v : View) : v.bytes.length = v.len := by
  unfold bytes len
  cases v.direction <;> simp

theorem getElem?_bytes {v : View} {p : Nat} (h : p < v.len) : v.bytes[p]? = some (v.byte p) := by
  have h' : p < v.data.toList.length := by simpa [len] using h
  cases hd : v.direction with
  | forward =>
    simp [bytes, byte, hd, Array.getD_eq_getD_getElem?,
      Array.getElem?_eq_getElem (show p < v.data.size by simpa using h')]
  | backward =>
    simp [bytes, byte, hd, len, List.getElem?_reverse h', Array.getD_eq_getD_getElem?,
      Array.getElem?_eq_getElem (show v.data.size - 1 - p < v.data.size by simp at h'; omega)]

/-- From an offset before the end, the view reads the byte there and then the rest. -/
theorem drop_bytes {v : View} {p : Nat} (h : p < v.len) :
    v.bytes.drop p = v.byte p :: v.bytes.drop (p + 1) := by
  have hp : p < v.bytes.length := by simpa using h
  rw [List.drop_eq_getElem_cons hp]
  congr
  have := getElem?_bytes h
  rw [List.getElem?_eq_getElem hp] at this
  exact Option.some.inj this

/-- What follows a run read from an offset is read from the offset after it. -/
theorem drop_bytes_of_eq {v : View} {p : Nat} {x y : List UInt8} (hp : p ≤ v.len)
    (h : v.bytes.drop p = x ++ y) :
    p + x.length ≤ v.len ∧ v.bytes.drop (p + x.length) = y := by
  have hlen := congrArg List.length h
  simp only [List.length_drop, length_bytes, List.length_append] at hlen
  refine ⟨by omega, ?_⟩
  rw [← List.drop_drop, h, List.drop_left]

/-- A list holds `b` from offset `p` on exactly when its entries there are those of `b`. -/
theorem exists_drop_eq_append_iff {l b : List UInt8} {p : Nat} :
    (∃ y, l.drop p = b ++ y) ↔ ∀ k x, b[k]? = some x → l[p + k]? = some x := by
  constructor
  · rintro ⟨y, hy⟩ k x hx
    have hk := (List.getElem?_eq_some_iff.1 hx).1
    have := congrArg (·[k]?) hy
    simp only [List.getElem?_drop, List.getElem?_append_left hk] at this
    rw [this, hx]
  · intro hall
    refine ⟨l.drop (p + b.length), List.ext_getElem? fun k => ?_⟩
    rw [List.getElem?_drop]
    by_cases hk : k < b.length
    · rw [List.getElem?_append_left hk, hall k _ (List.getElem?_eq_getElem hk),
        List.getElem?_eq_getElem hk]
    · rw [List.getElem?_append_right (by omega), List.getElem?_drop]
      congr 1
      omega

/-- The literal test reads exactly the literal's bytes at the offset, in either direction. -/
theorem matchesLiteral_iff (v : View) (p : Nat) (b : List UInt8) :
    v.matchesLiteral p b = true ↔ ∃ y, v.bytes.drop p = b ++ y := by
  unfold matchesLiteral
  split
  · -- fewer bytes left than the literal has
    rename_i hshort
    simp only [Bool.false_eq_true, false_iff]
    rintro ⟨y, hy⟩
    have := congrArg List.length hy
    simp only [List.length_drop, length_bytes, List.length_append] at this
    omega
  · rename_i hroom
    cases hd : v.direction with
    | forward =>
      have hb : v.bytes = v.data.toList := by simp [bytes, hd]
      simp only [beq_iff_eq, ← Array.toList_inj, Array.toList_extract, List.extract_eq_take_drop,
        ← hb, Nat.add_sub_cancel_left]
      constructor
      · intro htake
        exact ⟨_, by rw [← List.take_append_drop b.length (v.bytes.drop p), htake]⟩
      · rintro ⟨y, hy⟩
        rw [hy, List.take_left]
    | backward =>
      rw [exists_drop_eq_append_iff]
      simp only [List.all_eq_true, beq_iff_eq, Prod.forall, List.mem_zipIdx_iff_getElem?]
      constructor
      · intro hall k x hx
        have hk := (List.getElem?_eq_some_iff.1 hx).1
        rw [getElem?_bytes (by omega), hall x k hx]
      · intro hall x k hx
        have hk := (List.getElem?_eq_some_iff.1 hx).1
        have := hall k x hx
        rw [getElem?_bytes (by omega)] at this
        exact Option.some.inj this

/-- A fixed run matches from an offset exactly when a run of bytes read there is matched by
its pieces; it ends after those bytes. -/
theorem matchFixed_eq_some_iff {v : View} {p e : Nat} {run : List Piece} (hp : p ≤ v.len) :
    v.matchFixed p run = some e ↔
      ∃ x y, v.bytes.drop p = x ++ y ∧ Chain Piece.Matches run x ∧ e = p + x.length := by
  induction run generalizing p with
  | nil =>
    simp only [matchFixed, Option.some.injEq, Chain.nil_iff]
    constructor
    · rintro rfl
      exact ⟨[], _, rfl, rfl, rfl⟩
    · rintro ⟨x, y, -, rfl, rfl⟩
      rfl
  | cons piece run ih =>
    simp only [Chain.cons_iff]
    cases piece with
    | literal b =>
      simp only [matchFixed, Piece.matches_literal_iff]
      split
      · rename_i hlit
        obtain ⟨y₁, hy₁⟩ := (matchesLiteral_iff v p b).1 hlit
        obtain ⟨hle, hdrop⟩ := drop_bytes_of_eq hp hy₁
        rw [ih hle]
        constructor
        · rintro ⟨x, y, hxy, hrun, rfl⟩
          refine ⟨b ++ x, y, ?_, ⟨b, x, rfl, rfl, hrun⟩, by simp; omega⟩
          rw [hy₁, ← hdrop, hxy, List.append_assoc]
        · rintro ⟨_, y, hxy, ⟨x₁, x₂, rfl, rfl, hrun⟩, rfl⟩
          refine ⟨x₂, y, (drop_bytes_of_eq hp (by rw [hxy, List.append_assoc])).2, hrun, ?_⟩
          simp only [List.length_append]
          omega
      · rename_i hlit
        simp only [reduceCtorEq, false_iff]
        rintro ⟨_, y, hxy, ⟨x₁, x₂, rfl, rfl, -⟩, -⟩
        exact hlit ((matchesLiteral_iff v p x₁).2 ⟨x₂ ++ y, by rw [hxy, List.append_assoc]⟩)
    | byteSet c =>
      simp only [matchFixed, Piece.matches_byteSet_iff]
      split
      · rename_i hbyte
        obtain ⟨hlt, hacc⟩ := hbyte
        rw [ih hlt]
        constructor
        · rintro ⟨x, y, hxy, hrun, rfl⟩
          refine ⟨v.byte p :: x, y, ?_, ⟨[v.byte p], x, rfl, ⟨_, rfl, hacc⟩, hrun⟩, by simp; omega⟩
          rw [drop_bytes hlt, hxy, List.cons_append]
        · rintro ⟨_, y, hxy, ⟨x₁, x₂, rfl, ⟨b, rfl, -⟩, hrun⟩, rfl⟩
          rw [drop_bytes hlt] at hxy
          refine ⟨x₂, y, (List.cons.inj hxy).2, hrun, ?_⟩
          simp only [List.singleton_append, List.length_cons]
          omega
      · rename_i hbyte
        simp only [reduceCtorEq, false_iff]
        rintro ⟨_, y, hxy, ⟨x₁, x₂, rfl, ⟨b, rfl, hacc⟩, -⟩, -⟩
        have hlt : p < v.len := by
          have := (drop_bytes_of_eq hp hxy).1
          simp only [List.singleton_append, List.length_cons] at this
          omega
        rw [drop_bytes hlt] at hxy
        exact hbyte ⟨hlt, (List.cons.inj hxy).1 ▸ hacc⟩

theorem maxTake_le (v : View) (hi : Option Nat) (p : Nat) : v.maxTake hi p ≤ v.len - p := by
  cases hi with
  | none => exact Nat.le_refl _
  | some m => exact Nat.min_le_right _ _

/-- A fixed run that matches ends in the view. -/
theorem le_of_matchFixed {v : View} {p e : Nat} {run : List Piece} (hp : p ≤ v.len)
    (h : v.matchFixed p run = some e) : e ≤ v.len := by
  obtain ⟨x, y, hxy, -, rfl⟩ := (matchFixed_eq_some_iff hp).1 h
  exact (drop_bytes_of_eq hp hxy).1

/-- The first match names a run that matches, and no run before it matches. -/
theorem firstMatch_eq_some {v : View} {offset index b e : Nat} {runs : List (List Piece)}
    (h : v.firstMatch offset index runs = some (b, e)) :
    index ≤ b ∧ (∃ run, runs[b - index]? = some run ∧ v.matchFixed offset run = some e) ∧
      ∀ k run, k < b - index → runs[k]? = some run → v.matchFixed offset run = none := by
  induction runs generalizing index with
  | nil => simp [firstMatch] at h
  | cons run runs ih =>
    unfold firstMatch at h
    split at h
    · rename_i e' he'
      obtain ⟨rfl, rfl⟩ := Prod.mk.inj (Option.some.inj h)
      exact ⟨Nat.le_refl _, ⟨run, by simp, he'⟩, fun k _ hk => absurd hk (by omega)⟩
    · rename_i hnone
      obtain ⟨hb, ⟨r, hr, hre⟩, hbefore⟩ := ih h
      have hidx : b - index = (b - (index + 1)) + 1 := by omega
      refine ⟨by omega, ⟨r, by rw [hidx, List.getElem?_cons_succ]; exact hr, hre⟩, ?_⟩
      intro k r' hk hr'
      cases k with
      | zero =>
        rw [List.getElem?_cons_zero, Option.some.injEq] at hr'
        rw [← hr']
        exact hnone
      | succ k =>
        rw [List.getElem?_cons_succ] at hr'
        exact hbefore k r' (by omega) hr'

/-- No match means no run matches. -/
theorem firstMatch_eq_none {v : View} {offset index : Nat} {runs : List (List Piece)}
    (h : v.firstMatch offset index runs = none) : ∀ run ∈ runs, v.matchFixed offset run = none := by
  induction runs generalizing index with
  | nil => simp
  | cons run runs ih =>
    unfold firstMatch at h
    split at h
    · cases h
    · rename_i hnone
      intro r hr
      rcases List.mem_cons.1 hr with rfl | hr
      · exact hnone
      · exact ih h r hr

/-- The first branch from `next` on that matches: it matches, and no branch between does. -/
theorem firstBranch_eq_some {v : View} {branches : List (List Piece)} {offset next b e : Nat}
    (h : v.firstBranch branches offset next = some (b, e)) :
    next ≤ b ∧ (∃ run, branches[b]? = some run ∧ v.matchFixed offset run = some e) ∧
      ∀ k run, next ≤ k → k < b → branches[k]? = some run → v.matchFixed offset run = none := by
  obtain ⟨hb, ⟨run, hrun, he⟩, hbefore⟩ := firstMatch_eq_some h
  rw [List.getElem?_drop, Nat.add_sub_cancel' hb] at hrun
  refine ⟨hb, ⟨run, hrun, he⟩, fun k r hk hkb hr => hbefore (k - next) r (by omega) ?_⟩
  rw [List.getElem?_drop, Nat.add_sub_cancel' hk]
  exact hr

/-- No branch from `next` on matches. -/
theorem firstBranch_eq_none {v : View} {branches : List (List Piece)} {offset next : Nat}
    (h : v.firstBranch branches offset next = none) :
    ∀ k run, next ≤ k → branches[k]? = some run → v.matchFixed offset run = none := by
  intro k run hk hr
  refine firstMatch_eq_none h run (List.mem_iff_getElem?.2 ⟨k - next, ?_⟩)
  rw [List.getElem?_drop, Nat.add_sub_cancel' hk]
  exact hr

/-! ## §2 Matching from an offset -/

/-- The fragments match the view from `start` on, up to its end if `requireEnd`. -/
def MatchesFrom (v : View) (fs : List Fragment) (start : Nat) (requireEnd : Bool) : Prop :=
  start ≤ v.len ∧ ∃ x y, v.bytes.drop start = x ++ y ∧ Fragment.MatchesAll fs x ∧
    (requireEnd = true → y = [])

variable {v : View} {fs : List Fragment} {requireEnd : Bool} {p : Nat}

/-- With no fragments left, a match is the empty run, and it ends where required. -/
theorem matchesFrom_nil :
    v.MatchesFrom [] p requireEnd ↔ p ≤ v.len ∧ (requireEnd = true → p = v.len) := by
  unfold MatchesFrom
  simp only [Fragment.MatchesAll.nil_iff]
  constructor
  · rintro ⟨hp, x, y, hxy, rfl, hend⟩
    refine ⟨hp, fun hr => ?_⟩
    have := congrArg List.length hxy
    simp only [List.length_drop, length_bytes, List.nil_append, hend hr, List.length_nil] at this
    omega
  · rintro ⟨hp, hend⟩
    refine ⟨hp, [], _, rfl, rfl, fun hr => ?_⟩
    rw [hend hr]
    simp

/-- The first fragment matches a run read from the offset, and the rest match from after it. -/
theorem matchesFrom_cons {f : Fragment} :
    v.MatchesFrom (f :: fs) p requireEnd ↔
      ∃ x y, v.bytes.drop p = x ++ y ∧ Fragment.Matches f x ∧
        v.MatchesFrom fs (p + x.length) requireEnd := by
  constructor
  · rintro ⟨hp, _, y, hxy, hall, hend⟩
    cases hall with
    | cons hf hrest =>
      rename_i x₁ x₂
      rw [List.append_assoc] at hxy
      obtain ⟨hle, hdrop⟩ := drop_bytes_of_eq hp hxy
      exact ⟨x₁, x₂ ++ y, hxy, hf, hle, x₂, y, hdrop, hrest, hend⟩
  · rintro ⟨x, y', hxy', hf, hle, x₂, y, hdrop, hrest, hend⟩
    have hp : p ≤ v.len := by omega
    have hy' : y' = x₂ ++ y := by
      rw [← hdrop, (drop_bytes_of_eq hp hxy').2]
    refine ⟨hp, x ++ x₂, y, ?_, .cons hf hrest, hend⟩
    rw [hxy', hy', List.append_assoc]

end View

end ContainerProbe
