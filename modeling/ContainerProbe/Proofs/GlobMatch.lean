import Mathlib
import ContainerProbe.EntryPath.Basic

/-!
# What glob constructs stand for, and the engine that decides it

A glob compiles to a sequence of constructs (`GlobToken`), and this module says which runs of
characters each stands for (`GlobToken.Matches`): `**` a run without a line feed, `**/`
nothing or such a run ending in `/`, `*` a run without `/`, `?` one character other than `/`, a
choice one of its alternatives, and a character itself. A sequence matches a name split into
one run per construct (`GlobToken.MatchesAll`).

The engine of `Regex.isMatch` matches a name against constructs by carrying the positions of
the name where a partial match may stand: each construct moves every position to the ends of
the runs it stands for, and the name matches when its end is among the positions left after the
last construct. The positions it carries are exactly the ends of the splits of the name into
one run per construct, so it accepts exactly the names the constructs match.

Positions are those of the name's characters; `List.extract` reads the run between two of
them.

## Main statements

* `GlobToken.matchesAll_append_iff`: a sequence of constructs matches by splitting the name.
* `Regex.mem_advance`: one construct moves a position to exactly the ends of its runs.
* `Regex.mem_reach`: the same for a list of constructs.
* `Regex.accepts_iff`: the engine accepts a name exactly when the constructs match all of it.
-/

namespace ContainerProbe

/-! ## §1 What tokens stand for -/

namespace GlobToken

/-- The runs of characters a token stands for. -/
def Matches : GlobToken → List Char → Prop
  | .anyRun, w => '\n' ∉ w
  | .dirPrefix, w => w = [] ∨ ∃ u, w = u ++ ['/'] ∧ '\n' ∉ u
  | .segmentRun, w => '/' ∉ w
  | .oneChar, w => ∃ c, w = [c] ∧ c ≠ '/'
  | .choice alts, w => w ∈ alts
  | .char c, w => w = [c]

/-- Tokens match a name split into consecutive runs, one per token, each standing for its
token. -/
def MatchesAll : List GlobToken → List Char → Prop
  | [], n => n = []
  | t :: ts, n => ∃ w v, n = w ++ v ∧ t.Matches w ∧ MatchesAll ts v

theorem matchesAll_singleton_iff {t : GlobToken} {w : List Char} :
    MatchesAll [t] w ↔ t.Matches w := by
  simp [MatchesAll]

/-- Two sequences of constructs, one after the other, match a name split in two. -/
theorem matchesAll_append_iff {ts us : List GlobToken} {n : List Char} :
    MatchesAll (ts ++ us) n ↔ ∃ w v, n = w ++ v ∧ MatchesAll ts w ∧ MatchesAll us v := by
  induction ts generalizing n with
  | nil => simp [MatchesAll]
  | cons t ts ih =>
    simp only [List.cons_append, MatchesAll, ih]
    constructor
    · rintro ⟨w, v, rfl, ht, x, y, rfl, hts, hus⟩
      exact ⟨w ++ x, y, by simp, ⟨w, x, rfl, ht, hts⟩, hus⟩
    · rintro ⟨w, v, rfl, ⟨x, y, rfl, ht, hts⟩, hus⟩
      exact ⟨x, y ++ v, by simp, ht, y, v, rfl, hts, hus⟩

/-- Characters, each standing for itself, match exactly the text they spell. -/
theorem matchesAll_map_char_iff {text w : List Char} :
    MatchesAll (text.map char) w ↔ w = text := by
  induction text generalizing w with
  | nil => simp [MatchesAll]
  | cons c text ih =>
    simp only [List.map_cons, MatchesAll, Matches, ih]
    constructor
    · rintro ⟨w, v, rfl, rfl, rfl⟩
      rfl
    · rintro rfl
      exact ⟨[c], text, rfl, rfl, rfl⟩

end GlobToken

/-! ## §2 Runs between positions -/

section Extract

variable {α : Type} {l : List α}

theorem extract_getElem? (p q i : Nat) :
    (l.extract p q)[i]? = if p + i < q then l[p + i]? else none := by
  simp only [List.extract_eq_take_drop, List.getElem?_take, List.getElem?_drop]
  by_cases h : p + i < q
  · simp [h, show i < q - p by omega]
  · simp [h, show ¬i < q - p by omega]

theorem length_extract {p q : Nat} (hq : q ≤ l.length) : (l.extract p q).length = q - p := by
  simp only [List.extract_eq_take_drop, List.length_take, List.length_drop]
  omega

theorem extract_append {p m q : Nat} (hpm : p ≤ m) (hmq : m ≤ q) :
    l.extract p m ++ l.extract m q = l.extract p q := by
  simp only [List.extract_eq_take_drop]
  rw [show q - p = (m - p) + (q - m) by omega, List.take_add, List.drop_drop,
    show p + (m - p) = m by omega]

theorem extract_eq_nil_iff {p q : Nat} (hpq : p ≤ q) (hq : q ≤ l.length) :
    l.extract p q = [] ↔ q = p := by
  rw [← List.length_eq_zero_iff, length_extract hq]
  omega

/-- A run splits into two parts exactly at a position between its ends. -/
theorem extract_eq_append_iff {p q : Nat} (hpq : p ≤ q) (hq : q ≤ l.length) {w v : List α} :
    l.extract p q = w ++ v ↔ ∃ m, p ≤ m ∧ m ≤ q ∧ w = l.extract p m ∧ v = l.extract m q := by
  constructor
  · intro h
    have hlen : w.length ≤ q - p := by
      have := congrArg List.length h
      simp only [length_extract hq, List.length_append] at this
      omega
    refine ⟨p + w.length, by omega, by omega, ?_⟩
    rw [← extract_append (m := p + w.length) (by omega) (by omega)] at h
    have hw : (l.extract p (p + w.length)).length = w.length := by
      rw [length_extract (by omega)]
      omega
    exact List.append_inj h.symm hw.symm
  · rintro ⟨m, hpm, hmq, rfl, rfl⟩
    exact (extract_append hpm hmq).symm

theorem extract_succ {p : Nat} (hp : p < l.length) : l.extract p (p + 1) = [l[p]] := by
  apply List.ext_getElem?
  intro i
  rw [extract_getElem?]
  rcases Nat.eq_zero_or_pos i with rfl | hi
  · simp [List.getElem?_eq_getElem hp]
  · simp [show ¬p + i < p + 1 by omega, show ¬i = 0 by omega]

theorem mem_extract {p q : Nat} {a : α} :
    a ∈ l.extract p q ↔ ∃ i, p ≤ i ∧ i < q ∧ l[i]? = some a := by
  rw [List.mem_iff_getElem?]
  constructor
  · rintro ⟨i, hi⟩
    rw [extract_getElem?] at hi
    split at hi
    · exact ⟨p + i, by omega, by omega, hi⟩
    · cases hi
  · rintro ⟨i, hpi, hiq, hi⟩
    refine ⟨i - p, ?_⟩
    rw [extract_getElem?, if_pos (by omega), show p + (i - p) = i by omega, hi]

/-- A run is one character exactly when its end is one past its start, where that character
stands. -/
theorem extract_eq_singleton_iff {p q : Nat} (hq : q ≤ l.length) {a : α} :
    l.extract p q = [a] ↔ q = p + 1 ∧ l[p]? = some a := by
  constructor
  · intro h
    have hlen := congrArg List.length h
    rw [length_extract hq, List.length_singleton] at hlen
    have hq' : q = p + 1 := by omega
    subst hq'
    rw [extract_succ (by omega)] at h
    exact ⟨rfl, by rw [List.getElem?_eq_getElem (by omega), List.singleton_inj.1 h]⟩
  · rintro ⟨rfl, hp⟩
    have hlt : p < l.length := (List.getElem?_eq_some_iff.1 hp).1
    rw [extract_succ hlt, List.getElem?_eq_getElem hlt, Option.some.injEq] at *
    rw [hp]

end Extract

/-! ## §3 One construct -/

namespace Regex

variable {cs : List Char}

/-- A run that cannot take its first position ends where it starts. -/
theorem eq_iff_run_stops {P : Nat → Prop} {q r k : Nat} (hq : ¬P q) :
    r = q ↔ q ≤ r ∧ r ≤ q + k ∧ ∀ i, q ≤ i → i < r → P i := by
  constructor
  · rintro rfl
    exact ⟨Nat.le_refl r, by omega, fun i hqi hir => absurd hir (by omega)⟩
  · rintro ⟨hqr, -, hall⟩
    rcases Nat.eq_or_lt_of_le hqr with rfl | hlt
    · rfl
    · exact absurd (hall q (Nat.le_refl q) hlt) hq

/-- The scan of a run from position `q` reaches every position up to where its characters stop
being kept, within its fuel. -/
theorem mem_runFrom_go (keep : Char → Bool) (fuel : Nat) :
    ∀ q r, r ∈ runFrom.go cs.toArray keep q fuel ↔
      q ≤ r ∧ r ≤ q + fuel ∧ ∀ i, q ≤ i → i < r → ∃ c, cs[i]? = some c ∧ keep c = true := by
  induction fuel with
  | zero =>
    intro q r
    simp only [runFrom.go, List.mem_singleton, Nat.add_zero]
    constructor
    · rintro rfl
      exact ⟨Nat.le_refl _, Nat.le_refl _, fun i hqi hir => absurd hir (by omega)⟩
    · rintro ⟨hqr, hrq, -⟩
      omega
  | succ fuel ih =>
    intro q r
    simp only [runFrom.go, List.getElem?_toArray]
    cases hc : cs[q]? with
    | none =>
      -- the name ends at `q`: no character to keep
      simp only [List.mem_singleton]
      exact eq_iff_run_stops (by simp [hc])
    | some c =>
      by_cases hk : keep c = true
      · -- `q` is kept: the run goes on from `q + 1`
        simp only [hk, if_true, List.mem_cons, ih (q + 1) r]
        constructor
        · rintro (rfl | ⟨hqr, hrf, hall⟩)
          · exact ⟨Nat.le_refl r, by omega, fun i hqi hir => absurd hir (by omega)⟩
          · refine ⟨by omega, by omega, fun i hqi hir => ?_⟩
            rcases Nat.eq_or_lt_of_le hqi with rfl | hqi
            · exact ⟨c, hc, hk⟩
            · exact hall i hqi hir
        · rintro ⟨hqr, hrf, hall⟩
          rcases Nat.eq_or_lt_of_le hqr with rfl | hqr
          · exact .inl rfl
          · exact .inr ⟨hqr, by omega, fun i hqi hir => hall i (by omega) hir⟩
      · simp only [hk, Bool.false_eq_true, if_false, List.mem_singleton]
        exact eq_iff_run_stops (by simp [hc, hk])

/-- The scan of a run from position `p` of a name reaches exactly the ends of the runs of kept
characters that start at `p`. -/
theorem mem_runFrom {keep : Char → Bool} {p : Nat} (hp : p ≤ cs.length) (r : Nat) :
    r ∈ runFrom cs.toArray keep p ↔
      p ≤ r ∧ r ≤ cs.length ∧ ∀ c ∈ cs.extract p r, keep c = true := by
  rw [runFrom, mem_runFrom_go, List.size_toArray, show p + (cs.length - p) = cs.length by omega]
  refine and_congr_right fun hpr => and_congr_right fun hr => ?_
  constructor
  · intro hall c hc
    obtain ⟨i, hpi, hir, hi⟩ := mem_extract.1 hc
    obtain ⟨c', hc', hk⟩ := hall i hpi hir
    rw [hi] at hc'
    cases hc'
    exact hk
  · intro hall i hpi hir
    have hi : i < cs.length := by omega
    exact ⟨cs[i], List.getElem?_eq_getElem hi,
      hall _ (mem_extract.2 ⟨i, hpi, hir, List.getElem?_eq_getElem hi⟩)⟩

/-- `charsAt` tests exactly that the run of the alternative's length at `p` is the
alternative. -/
theorem charsAt_iff (p : Nat) (a : List Char) :
    charsAt cs.toArray p a = true ↔ cs.extract p (p + a.length) = a := by
  simp only [charsAt, List.all_eq_true, beq_iff_eq, Prod.forall, List.mem_zipIdx_iff_getElem?,
    List.getElem?_toArray]
  constructor
  · intro hall
    apply List.ext_getElem?
    intro i
    rw [extract_getElem?]
    by_cases hi : i < a.length
    · rw [if_pos (by omega), hall _ _ (List.getElem?_eq_getElem hi), List.getElem?_eq_getElem hi]
    · rw [if_neg (by omega), List.getElem?_eq_none (by omega)]
  · intro hrun c i hci
    have hi : i < a.length := (List.getElem?_eq_some_iff.1 hci).1
    have := congrArg (·[i]?) hrun
    simp only [extract_getElem?, if_pos (show p + i < p + a.length by omega), hci] at this
    exact this

/-- One construct moves a position of the name to exactly the ends of the runs the construct
stands for that start there. -/
theorem mem_advance {p : Nat} (hp : p ≤ cs.length) (t : GlobToken) (q : Nat) :
    q ∈ advance cs.toArray p t ↔ p ≤ q ∧ q ≤ cs.length ∧ t.Matches (cs.extract p q) := by
  cases t with
  | char c =>
    simp only [advance, List.getElem?_toArray, beq_iff_eq, GlobToken.Matches]
    split
    · rename_i hc
      have hlt : p < cs.length := (List.getElem?_eq_some_iff.1 hc).1
      simp only [List.mem_singleton]
      constructor
      · rintro rfl
        exact ⟨by omega, hlt, (extract_eq_singleton_iff hlt).2 ⟨rfl, hc⟩⟩
      · rintro ⟨-, hq, h⟩
        exact ((extract_eq_singleton_iff hq).1 h).1
    · rename_i hc
      simp only [List.not_mem_nil, false_iff]
      rintro ⟨-, hq, h⟩
      exact hc ((extract_eq_singleton_iff hq).1 h).2
  | oneChar =>
    simp only [advance, List.getElem?_toArray, GlobToken.Matches]
    constructor
    · intro hq
      split at hq
      · rename_i c hc
        split at hq
        · rename_i hslash
          have hlt : p < cs.length := (List.getElem?_eq_some_iff.1 hc).1
          rw [List.mem_singleton.1 hq]
          exact ⟨by omega, hlt, c, (extract_eq_singleton_iff hlt).2 ⟨rfl, hc⟩, hslash⟩
        · cases hq
      · cases hq
    · rintro ⟨-, hq, c, h, hslash⟩
      obtain ⟨rfl, hc⟩ := (extract_eq_singleton_iff hq).1 h
      simp [hc, hslash]
  | segmentRun | anyRun =>
    -- a run keeps its characters exactly when the excluded one is not among them
    simp only [advance, mem_runFrom hp, GlobToken.Matches, decide_eq_true_eq,
      List.forall_mem_ne']
  | dirPrefix =>
    simp only [advance, List.mem_cons, List.mem_filterMap, mem_runFrom hp,
      List.getElem?_toArray, beq_iff_eq, decide_eq_true_eq, List.forall_mem_ne',
      GlobToken.Matches]
    constructor
    · rintro (rfl | ⟨r, ⟨hpr, hr, hbreak⟩, hq⟩)
      · exact ⟨Nat.le_refl q, hp, .inl (by simp)⟩
      · -- a run without line feeds, then the `/` at `r`
        split at hq
        · rename_i hslash
          cases hq
          have hlt : r < cs.length := (List.getElem?_eq_some_iff.1 hslash).1
          refine ⟨by omega, hlt, .inr ⟨cs.extract p r, ?_, hbreak⟩⟩
          rw [← extract_append hpr (Nat.le_succ r), extract_succ hlt,
            (List.getElem?_eq_some_iff.1 hslash).2]
        · cases hq
    · rintro ⟨hpq, hq, hnil | ⟨u, hu, hbreak⟩⟩
      · exact .inl ((extract_eq_nil_iff hpq hq).1 hnil)
      · -- the last character of the run is the `/`
        obtain ⟨r, hpr, hrq, rfl, hlast⟩ := (extract_eq_append_iff hpq hq).1 hu
        have hq' : q = r + 1 := by
          have := congrArg List.length hlast
          rw [length_extract hq, List.length_singleton] at this
          omega
        subst hq'
        rw [extract_succ (by omega), List.singleton_inj] at hlast
        refine .inr ⟨r, ⟨hpr, by omega, hbreak⟩, ?_⟩
        rw [if_pos (by rw [List.getElem?_eq_getElem (by omega), ← hlast])]
  | choice alts =>
    simp only [advance, List.mem_filterMap, List.size_toArray, GlobToken.Matches]
    constructor
    · rintro ⟨a, ha, hq⟩
      split at hq
      · rename_i hfit
        cases hq
        rw [(charsAt_iff p a).1 hfit.2]
        exact ⟨by omega, hfit.1, ha⟩
      · cases hq
    · rintro ⟨hpq, hq, ha⟩
      have hlen : p + (cs.extract p q).length = q := by
        rw [length_extract hq]
        omega
      refine ⟨_, ha, ?_⟩
      rw [if_pos ⟨by omega, (charsAt_iff p _).2 (by rw [hlen])⟩, hlen]

/-! ## §4 Lists of constructs -/

/-- After a list of constructs, the engine stands exactly at the ends of the runs from one of
its starting positions that the constructs match. -/
theorem mem_reach (ts : List GlobToken) :
    ∀ ps : List Nat, (∀ p ∈ ps, p ≤ cs.length) → ∀ q,
      q ∈ reach cs.toArray ts ps ↔
        ∃ p ∈ ps, p ≤ q ∧ q ≤ cs.length ∧ GlobToken.MatchesAll ts (cs.extract p q) := by
  induction ts with
  | nil =>
    intro ps hps q
    simp only [reach, List.foldl_nil, GlobToken.MatchesAll]
    constructor
    · intro hq
      exact ⟨q, hq, Nat.le_refl q, hps q hq, by simp⟩
    · rintro ⟨p, hp, hpq, hq, hnil⟩
      rwa [(extract_eq_nil_iff hpq hq).1 hnil]
  | cons t ts ih =>
    intro ps hps q
    -- the positions after `t` are again within the name, so the rest of the tokens apply
    have hstep : ∀ r, r ∈ (ps.flatMap fun p => advance cs.toArray p t).eraseDups ↔
        ∃ p ∈ ps, p ≤ r ∧ r ≤ cs.length ∧ t.Matches (cs.extract p r) := by
      intro r
      simp only [List.mem_eraseDups, List.mem_flatMap]
      exact exists_congr fun p => and_congr_right fun hp => mem_advance (hps p hp) t r
    have hbound : ∀ r ∈ (ps.flatMap fun p => advance cs.toArray p t).eraseDups,
        r ≤ cs.length := fun r hr => ((hstep r).1 hr).choose_spec.2.2.1
    change q ∈ reach cs.toArray ts _ ↔ _
    rw [ih _ hbound q]
    constructor
    · rintro ⟨r, hr, hrq, hq, hrest⟩
      obtain ⟨p, hp, hpr, -, ht⟩ := (hstep r).1 hr
      exact ⟨p, hp, by omega, hq, _, _, (extract_append hpr hrq).symm, ht, hrest⟩
    · rintro ⟨p, hp, hpq, hq, w, v, hwv, ht, hrest⟩
      obtain ⟨r, hpr, hrq, rfl, rfl⟩ := (extract_eq_append_iff hpq hq).1 hwv
      exact ⟨r, (hstep r).2 ⟨p, hp, hpr, by omega, ht⟩, hrq, hq, hrest⟩

/-- The engine accepts a name exactly when the constructs match the whole name. -/
theorem accepts_iff (ts : List GlobToken) (name : String) :
    accepts ts name = true ↔ GlobToken.MatchesAll ts name.toList := by
  simp only [accepts, List.contains_iff_mem, List.size_toArray]
  rw [mem_reach ts [0] (by simp)]
  constructor
  · rintro ⟨p, hp, -, -, h⟩
    rw [List.mem_singleton.1 hp] at h
    simpa [List.extract_eq_take_drop] using h
  · intro h
    exact ⟨0, List.mem_singleton_self 0, Nat.zero_le _, Nat.le_refl _, by
      simpa [List.extract_eq_take_drop] using h⟩

end Regex

end ContainerProbe
