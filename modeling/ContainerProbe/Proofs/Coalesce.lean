import Mathlib
import ContainerProbe.Proofs.Runs

/-!
# Coalescing fragments

`Fragment.coalesce` puts a fragment list in normal form: fragments that match only the empty
run (the empty literal, the gap of exactly zero bytes) are dropped, neighbouring literals are
joined, and neighbouring gaps merge into one whose bounds are the sums of theirs, saturated at
the largest size, an absent upper bound absorbing the other.

Joining literals never changes what a list matches. Merging gaps does not either, on strings
shorter than the largest size (where no sum saturates), as long as the gaps merged each have
their least bound below their greatest, which every gap the compiler builds has: a gap of two
to one bytes matches nothing, while merged with a gap of zero to five bytes it would count as a
gap of two to six.

## Main statements

* `Fragment.coalesced_coalesce`: the output is coalesced.
* `Fragment.coalesce_of_coalesced`: a coalesced list is its own normal form.
* `Fragment.matchesAll_coalesce`: coalescing keeps what a list of ordered fragments matches.
* `Fragment.coalesce_normal_form`: the three together, so coalescing twice is coalescing once.
-/

namespace ContainerProbe.Fragment

/-! ## §1 The normal form -/

/-- Two fragments that coalescing joins when they stand side by side: two literals, or two
gaps. -/
def Joinable : Fragment → Fragment → Bool
  | .literal _, .literal _ => true
  | .gap _ _, .gap _ _ => true
  | _, _ => false

/-- A coalesced list: no literal without bytes, no gap of exactly zero bytes, and no two
neighbours that coalescing would join. -/
structure Coalesced (fs : List Fragment) : Prop where
  /-- No literal is empty. -/
  literal_ne_nil : Fragment.literal [] ∉ fs
  /-- No gap is of exactly zero bytes. -/
  gap_ne_zero : Fragment.gap 0 (some 0) ∉ fs
  /-- No two literals and no two gaps stand side by side. -/
  apart : fs.IsChain fun f g => f.Joinable g = false

/-- A gap whose least bound is below its greatest, when it has one; every other fragment is
ordered. -/
def Ordered (f : Fragment) : Prop := ∀ lo hi, f = .gap lo (some hi) → lo ≤ hi

theorem isVoid_iff {f : Fragment} : f.isVoid = true ↔ f = .literal [] ∨ f = .gap 0 (some 0) := by
  unfold isVoid
  split <;> simp_all

theorem coalesced_nil : Coalesced [] := ⟨by simp, by simp, .nil⟩

theorem coalesced_cons_iff {f : Fragment} {out : List Fragment} :
    Coalesced (f :: out) ↔
      f.isVoid = false ∧ (∀ g ∈ out.head?, f.Joinable g = false) ∧ Coalesced out := by
  have hvoid : f.isVoid = false ↔ f ≠ .literal [] ∧ f ≠ .gap 0 (some 0) := by
    rw [← Bool.not_eq_true, isVoid_iff, not_or]
  constructor
  · rintro ⟨hlit, hgap, hchain⟩
    simp only [List.mem_cons, not_or] at hlit hgap
    refine ⟨hvoid.2 ⟨Ne.symm hlit.1, Ne.symm hgap.1⟩, ?_, ⟨hlit.2, hgap.2, hchain.tail⟩⟩
    intro g hg
    obtain ⟨rest, rfl⟩ : ∃ rest, out = g :: rest := by
      cases out with
      | nil => simp at hg
      | cons g' rest => simp at hg; exact ⟨rest, by rw [hg]⟩
    exact (List.isChain_cons_cons.1 hchain).1
  · rintro ⟨hf, hhead, hlit, hgap, hchain⟩
    obtain ⟨hne₁, hne₂⟩ := hvoid.1 hf
    refine ⟨by simp [Ne.symm hne₁, hlit], by simp [Ne.symm hne₂, hgap], ?_⟩
    cases out with
    | nil => exact .singleton f
    | cons g rest => exact List.isChain_cons_cons.2 ⟨hhead g rfl, hchain⟩

/-! ## §2 One step of coalescing -/

/-- What `prepend` does: drop a void fragment, join a literal or a gap to a leading one of its
kind, or put the fragment in front. -/
theorem prepend_cases (f : Fragment) (out : List Fragment) :
    (f.isVoid = true ∧ prepend f out = out) ∨
    (∃ a b rest, f = .literal a ∧ a ≠ [] ∧ out = .literal b :: rest ∧
      prepend f out = .literal (a ++ b) :: rest) ∨
    (∃ lo hi lo' hi' rest, f = .gap lo hi ∧ f.isVoid = false ∧ out = .gap lo' hi' :: rest ∧
      prepend f out = .gap (Size.satAdd lo lo') (mergeMax hi hi') :: rest) ∨
    (f.isVoid = false ∧ (∀ g ∈ out.head?, f.Joinable g = false) ∧ prepend f out = f :: out) := by
  by_cases hv : f.isVoid = true
  · exact .inl ⟨hv, by simp [prepend, hv]⟩
  have hv' : f.isVoid = false := by simpa using hv
  right
  match f, out with
  | .literal a, .literal b :: rest =>
    have ha : a ≠ [] := by rintro rfl; exact hv rfl
    exact .inl ⟨a, b, rest, rfl, ha, rfl, by simp [prepend, hv']⟩
  | .gap lo hi, .gap lo' hi' :: rest =>
    exact .inr (.inl ⟨lo, hi, lo', hi', rest, rfl, hv', rfl, by simp [prepend, hv']⟩)
  | .literal a, [] => exact .inr (.inr ⟨hv', by simp, by simp [prepend, hv']⟩)
  | .literal a, .byteSet c :: rest =>
    exact .inr (.inr ⟨hv', by simp [Joinable], by simp [prepend, hv']⟩)
  | .literal a, .gap lo hi :: rest =>
    exact .inr (.inr ⟨hv', by simp [Joinable], by simp [prepend, hv']⟩)
  | .literal a, .alternatives bs :: rest =>
    exact .inr (.inr ⟨hv', by simp [Joinable], by simp [prepend, hv']⟩)
  | .gap lo hi, [] => exact .inr (.inr ⟨hv', by simp, by simp [prepend, hv']⟩)
  | .gap lo hi, .literal b :: rest =>
    exact .inr (.inr ⟨hv', by simp [Joinable], by simp [prepend, hv']⟩)
  | .gap lo hi, .byteSet c :: rest =>
    exact .inr (.inr ⟨hv', by simp [Joinable], by simp [prepend, hv']⟩)
  | .gap lo hi, .alternatives bs :: rest =>
    exact .inr (.inr ⟨hv', by simp [Joinable], by simp [prepend, hv']⟩)
  | .byteSet c, out =>
    exact .inr (.inr ⟨hv', fun g _ => by cases g <;> rfl, by simp [prepend, hv']⟩)
  | .alternatives bs, out =>
    exact .inr (.inr ⟨hv', fun g _ => by cases g <;> rfl, by simp [prepend, hv']⟩)

theorem joinable_literal (a b : List UInt8) (g : Fragment) :
    Joinable (.literal a) g = Joinable (.literal b) g := by
  cases g <;> rfl

theorem joinable_gap (lo hi lo' hi') (g : Fragment) :
    Joinable (.gap lo hi) g = Joinable (.gap lo' hi') g := by
  cases g <;> rfl

theorem isVoid_literal {a : List UInt8} : (Fragment.literal a).isVoid = true ↔ a = [] := by
  simp [isVoid_iff]

theorem isVoid_gap {lo : Nat} {hi : Option Nat} :
    (Fragment.gap lo hi).isVoid = true ↔ lo = 0 ∧ hi = some 0 := by
  simp [isVoid_iff]

theorem satAdd_eq_zero {a b : Nat} (h : Size.satAdd a b = 0) : a = 0 ∧ b = 0 := by
  have hmax : 0 < Size.max := by decide
  simp only [Size.satAdd, Nat.min_def] at h
  split at h <;> omega

/-- A merged gap is of exactly zero bytes only when the gap merged into was. -/
theorem isVoid_merge {lo lo' : Nat} {hi hi' : Option Nat}
    (h : (Fragment.gap lo' hi').isVoid = false) :
    (Fragment.gap (Size.satAdd lo lo') (mergeMax hi hi')).isVoid = false := by
  rw [← Bool.not_eq_true, isVoid_gap] at h ⊢
  rintro ⟨hlo, hhi⟩
  apply h ⟨(satAdd_eq_zero hlo).2, ?_⟩
  match hi, hi', hhi with
  | some a, some b, hhi =>
    simp only [mergeMax, Option.some.injEq] at hhi
    rw [(satAdd_eq_zero hhi).2]

/-! ## §3 The output is coalesced, and coalesced lists are kept -/

theorem coalesce_cons (f : Fragment) (fs : List Fragment) :
    coalesce (f :: fs) = prepend f (coalesce fs) := rfl

theorem coalesced_prepend (f : Fragment) {out : List Fragment} (h : Coalesced out) :
    Coalesced (prepend f out) := by
  rcases prepend_cases f out with ⟨-, heq⟩ | ⟨a, b, rest, rfl, ha, rfl, heq⟩ |
    ⟨lo, hi, lo', hi', rest, rfl, -, rfl, heq⟩ | ⟨hf, hhead, heq⟩ <;> rw [heq]
  · exact h
  · -- joining literals: the joined literal has bytes, and what follows is no literal
    obtain ⟨-, hhead, hrest⟩ := coalesced_cons_iff.1 h
    refine coalesced_cons_iff.2 ⟨by simp [← Bool.not_eq_true, isVoid_literal, ha], ?_, hrest⟩
    intro g hg
    rw [joinable_literal (a ++ b) b]
    exact hhead g hg
  · -- merging gaps: the merged gap is not of zero bytes, and what follows is no gap
    obtain ⟨hv, hhead, hrest⟩ := coalesced_cons_iff.1 h
    refine coalesced_cons_iff.2 ⟨isVoid_merge hv, ?_, hrest⟩
    intro g hg
    rw [joinable_gap _ _ lo' hi']
    exact hhead g hg
  · exact coalesced_cons_iff.2 ⟨hf, hhead, h⟩

theorem coalesced_coalesce (fs : List Fragment) : Coalesced (coalesce fs) := by
  induction fs with
  | nil => exact coalesced_nil
  | cons f fs ih => exact coalesced_prepend f ih

theorem coalesce_of_coalesced {fs : List Fragment} (h : Coalesced fs) : coalesce fs = fs := by
  induction fs with
  | nil => rfl
  | cons f fs ih =>
    obtain ⟨hf, hhead, hrest⟩ := coalesced_cons_iff.1 h
    rw [coalesce_cons, ih hrest]
    -- a fragment that is not void and joins nothing is put in front
    rcases prepend_cases f fs with ⟨hv, -⟩ | ⟨a, b, rest, rfl, -, rfl, -⟩ |
      ⟨lo, hi, lo', hi', rest, rfl, -, rfl, -⟩ | ⟨-, -, heq⟩
    · simp [hf] at hv
    · exact absurd (hhead _ rfl) (by simp [Joinable])
    · exact absurd (hhead _ rfl) (by simp [Joinable])
    · exact heq

/-! ## §4 Coalescing keeps what ordered fragments match -/

theorem matchesAll_cons_iff {f : Fragment} {fs : List Fragment} {s : List UInt8} :
    MatchesAll (f :: fs) s ↔ ∃ x y, s = x ++ y ∧ Matches f x ∧ MatchesAll fs y := by
  constructor
  · rintro ⟨⟩
    exact ⟨_, _, rfl, ‹_›, ‹_›⟩
  · rintro ⟨x, y, rfl, hx, hy⟩
    exact .cons hx hy

/-- A void fragment matches the empty run and nothing else. -/
theorem matches_of_isVoid {f : Fragment} (hv : f.isVoid = true) {x : List UInt8} :
    Matches f x ↔ x = [] := by
  rcases isVoid_iff.1 hv with rfl | rfl
  · exact matches_literal_iff
  · rw [matches_gap_iff]
    constructor
    · rintro ⟨-, h⟩
      exact List.eq_nil_of_length_eq_zero (Nat.le_zero.1 (h 0 rfl))
    · rintro rfl
      exact ⟨Nat.le_refl 0, fun _ h => by cases h; exact Nat.le_refl 0⟩

theorem satAdd_le_satAdd {a b c d : Nat} (hac : a ≤ c) (hbd : b ≤ d) :
    Size.satAdd a b ≤ Size.satAdd c d := by
  simp only [Size.satAdd, Nat.min_def]
  split <;> split <;> omega

theorem mergeMax_eq_some {hi hi' : Option Nat} {m : Nat} :
    mergeMax hi hi' = some m ↔ ∃ a b, hi = some a ∧ hi' = some b ∧ m = Size.satAdd a b := by
  cases hi <;> cases hi' <;> simp [mergeMax, eq_comm]

theorem ordered_merge {lo lo' : Nat} {hi hi' : Option Nat} (ho : Ordered (.gap lo hi))
    (ho' : Ordered (.gap lo' hi')) : Ordered (.gap (Size.satAdd lo lo') (mergeMax hi hi')) := by
  intro _ m heq
  simp only [gap.injEq] at heq
  obtain ⟨rfl, hm⟩ := heq
  obtain ⟨a, b, rfl, rfl, rfl⟩ := mergeMax_eq_some.1 hm
  exact satAdd_le_satAdd (ho lo a rfl) (ho' lo' b rfl)

/-- A length between the sums of two pairs of ordered bounds splits into a length within
each pair: the first takes as much as its bound allows while leaving the second its least. -/
theorem exists_split {n lo lo' : Nat} {hi hi' : Option Nat} (ho : ∀ a, hi = some a → lo ≤ a)
    (ho' : ∀ b, hi' = some b → lo' ≤ b) (hlo : lo + lo' ≤ n)
    (hhi : ∀ a b, hi = some a → hi' = some b → n ≤ a + b) :
    ∃ k, k ≤ n ∧ lo ≤ k ∧ (∀ a, hi = some a → k ≤ a) ∧ lo' ≤ n - k ∧
      (∀ b, hi' = some b → n - k ≤ b) := by
  cases hi with
  | none =>
    refine ⟨n - lo', by omega, by omega, by simp, by omega, fun b hb => ?_⟩
    have := ho' b hb
    omega
  | some a =>
    have ha := ho a rfl
    -- the first gap takes its greatest bound, unless the second would get less than its least
    refine ⟨Nat.min a (n - lo'), ?_, ?_, ?_, ?_, fun b hb => ?_⟩ <;> simp only [Nat.min_def]
    · split <;> omega
    · split <;> omega
    · intro a' ha'
      cases ha'
      split <;> omega
    · split <;> omega
    · have hb' := ho' b hb
      have hsum := hhi a b rfl hb
      split <;> omega

/-- On runs shorter than the largest size, a merged gap matches exactly the runs that split
into a run of each gap. -/
theorem matches_merge_iff {lo lo' : Nat} {hi hi' : Option Nat} {x : List UInt8}
    (hx : x.length < Size.max) (ho : Ordered (.gap lo hi)) (ho' : Ordered (.gap lo' hi')) :
    Matches (.gap (Size.satAdd lo lo') (mergeMax hi hi')) x ↔
      ∃ x₁ x₂, x = x₁ ++ x₂ ∧ Matches (.gap lo hi) x₁ ∧ Matches (.gap lo' hi') x₂ := by
  simp only [matches_gap_iff]
  -- below the largest size no sum saturates
  have hsat : ∀ a b, x.length ≤ Size.satAdd a b ↔ x.length ≤ a + b := by
    intro a b
    simp only [Size.satAdd, Nat.min_def]
    split <;> omega
  have hlo : Size.satAdd lo lo' ≤ x.length ↔ lo + lo' ≤ x.length := by
    simp only [Size.satAdd, Nat.min_def]
    split <;> omega
  have hhi : (∀ m, mergeMax hi hi' = some m → x.length ≤ m) ↔
      ∀ a b, hi = some a → hi' = some b → x.length ≤ a + b := by
    constructor
    · intro h a b ha hb
      exact (hsat a b).1 (h _ (mergeMax_eq_some.2 ⟨a, b, ha, hb, rfl⟩))
    · intro h m hm
      obtain ⟨a, b, ha, hb, rfl⟩ := mergeMax_eq_some.1 hm
      exact (hsat a b).2 (h a b ha hb)
  rw [hlo, hhi]
  constructor
  · rintro ⟨hle, hge⟩
    obtain ⟨k, hk, hk₁, hk₂, hk₃, hk₄⟩ :=
      exists_split (fun a ha => ho lo a (by rw [ha])) (fun b hb => ho' lo' b (by rw [hb])) hle hge
    refine ⟨x.take k, x.drop k, (List.take_append_drop k x).symm, ?_, ?_⟩
    · simp only [List.length_take, Nat.min_eq_left hk]
      exact ⟨hk₁, hk₂⟩
    · simp only [List.length_drop]
      exact ⟨hk₃, hk₄⟩
  · rintro ⟨x₁, x₂, rfl, ⟨hlo₁, hhi₁⟩, ⟨hlo₂, hhi₂⟩⟩
    simp only [List.length_append]
    refine ⟨by omega, fun a b ha hb => ?_⟩
    have := hhi₁ a ha
    have := hhi₂ b hb
    omega

/-- Putting one ordered fragment in front of a list, in the way of `prepend`, keeps what the
list matches, on strings shorter than the largest size. -/
theorem matchesAll_prepend {f : Fragment} {out : List Fragment} {s : List UInt8}
    (hs : s.length < Size.max) (hf : f.Ordered) (hout : ∀ g ∈ out.head?, g.Ordered) :
    MatchesAll (prepend f out) s ↔ MatchesAll (f :: out) s := by
  rw [matchesAll_cons_iff]
  rcases prepend_cases f out with ⟨hv, heq⟩ | ⟨a, b, rest, rfl, -, rfl, heq⟩ |
    ⟨lo, hi, lo', hi', rest, rfl, -, rfl, heq⟩ | ⟨-, -, heq⟩ <;> rw [heq]
  · -- a void fragment takes no bytes
    simp only [matches_of_isVoid hv]
    exact ⟨fun h => ⟨[], s, rfl, rfl, h⟩, fun ⟨_, _, hs', hx, hy⟩ => by simpa [hs', hx] using hy⟩
  · -- joined literals take the bytes of both
    simp only [matchesAll_cons_iff, matches_literal_iff]
    constructor
    · rintro ⟨x, y, rfl, hx, hy⟩
      subst hx
      exact ⟨a, b ++ y, by simp, rfl, b, y, rfl, rfl, hy⟩
    · rintro ⟨x, z, rfl, hx, x', y, rfl, hx', hy⟩
      subst hx hx'
      exact ⟨_, y, by simp, rfl, hy⟩
  · -- a merged gap takes a run that splits between the two gaps
    have ho' : Ordered (.gap lo' hi') := hout _ rfl
    simp only [matchesAll_cons_iff]
    constructor
    · rintro ⟨x, y, rfl, hx, hy⟩
      have hxlen : x.length < Size.max := by simp only [List.length_append] at hs; omega
      obtain ⟨x₁, x₂, rfl, h₁, h₂⟩ := (matches_merge_iff hxlen hf ho').1 hx
      exact ⟨x₁, x₂ ++ y, by simp, h₁, x₂, y, rfl, h₂, hy⟩
    · rintro ⟨x₁, _, rfl, h₁, x₂, y, rfl, h₂, hy⟩
      have hxlen : (x₁ ++ x₂).length < Size.max := by simp only [List.length_append] at hs ⊢; omega
      exact ⟨x₁ ++ x₂, y, by simp, (matches_merge_iff hxlen hf ho').2 ⟨x₁, x₂, rfl, h₁, h₂⟩, hy⟩
  · rw [matchesAll_cons_iff]

theorem ordered_prepend {f : Fragment} {out : List Fragment} (hf : f.Ordered)
    (hout : ∀ g ∈ out, g.Ordered) : ∀ g ∈ prepend f out, g.Ordered := by
  rcases prepend_cases f out with ⟨-, heq⟩ | ⟨a, b, rest, rfl, -, rfl, heq⟩ |
    ⟨lo, hi, lo', hi', rest, rfl, -, rfl, heq⟩ | ⟨-, -, heq⟩ <;> rw [heq]
  · exact hout
  · intro g hg
    rcases List.mem_cons.1 hg with rfl | hg
    · rintro _ _ ⟨⟩
    · exact hout g (List.mem_cons_of_mem _ hg)
  · intro g hg
    rcases List.mem_cons.1 hg with rfl | hg
    · exact ordered_merge hf (hout _ List.mem_cons_self)
    · exact hout g (List.mem_cons_of_mem _ hg)
  · intro g hg
    rcases List.mem_cons.1 hg with rfl | hg
    · exact hf
    · exact hout g hg

theorem ordered_coalesce {fs : List Fragment} (h : ∀ f ∈ fs, f.Ordered) :
    ∀ g ∈ coalesce fs, g.Ordered := by
  induction fs with
  | nil => simp [coalesce]
  | cons f fs ih =>
    exact ordered_prepend (h f List.mem_cons_self) (ih fun g hg => h g (List.mem_cons_of_mem _ hg))

/-- Coalescing a list of ordered fragments keeps what it matches, on every string shorter than
the largest size. -/
theorem matchesAll_coalesce {fs : List Fragment} (h : ∀ f ∈ fs, f.Ordered) {s : List UInt8}
    (hs : s.length < Size.max) : MatchesAll (coalesce fs) s ↔ MatchesAll fs s := by
  induction fs generalizing s with
  | nil => rfl
  | cons f fs ih =>
    have hfs : ∀ g ∈ fs, g.Ordered := fun g hg => h g (List.mem_cons_of_mem _ hg)
    have hhead : ∀ g ∈ (coalesce fs).head?, g.Ordered :=
      fun g hg => ordered_coalesce hfs g (List.mem_of_mem_head? hg)
    rw [coalesce_cons, matchesAll_prepend hs (h f List.mem_cons_self) hhead, matchesAll_cons_iff,
      matchesAll_cons_iff]
    -- the rest is matched by a part of `s`, short enough for the induction
    constructor
    · rintro ⟨x, y, rfl, hx, hy⟩
      have hy' : y.length < Size.max := by simp only [List.length_append] at hs; omega
      exact ⟨x, y, rfl, hx, (ih hfs hy').1 hy⟩
    · rintro ⟨x, y, rfl, hx, hy⟩
      have hy' : y.length < Size.max := by simp only [List.length_append] at hs; omega
      exact ⟨x, y, rfl, hx, (ih hfs hy').2 hy⟩

/-! ## §5 The normal form -/

/-- Coalescing reaches a normal form: its output is coalesced, so coalescing it again changes
nothing, and for fragments whose gaps are ordered, as every gap the compiler builds is, the
output matches exactly the strings the input matches, below the largest size. -/
theorem coalesce_normal_form (fs : List Fragment) :
    Coalesced (coalesce fs) ∧ coalesce (coalesce fs) = coalesce fs ∧
      ((∀ f ∈ fs, f.Ordered) → ∀ s : List UInt8, s.length < Size.max →
        (MatchesAll (coalesce fs) s ↔ MatchesAll fs s)) :=
  ⟨coalesced_coalesce fs, coalesce_of_coalesced (coalesced_coalesce fs),
    fun h _ hs => matchesAll_coalesce h hs⟩

/-- Two literals and two gaps side by side, as in `01 02 {2} {1-3} 03`, become one literal and
one gap of three to five bytes, matching the same six bytes. -/
theorem coalesce_normal_form_joined :
    let fs := [Fragment.literal [1], .literal [2], .gap 2 (some 2), .gap 1 (some 3), .literal [3]]
    (∀ f ∈ fs, f.Ordered) ∧ coalesce fs = [.literal [1, 2], .gap 3 (some 5), .literal [3]] ∧
      (MatchesAll (coalesce fs) [1, 2, 0, 0, 0, 3] ↔ MatchesAll fs [1, 2, 0, 0, 0, 3]) := by
  intro fs
  have hord : ∀ f ∈ fs, f.Ordered := by
    intro f hf
    simp only [fs, List.mem_cons, List.not_mem_nil, or_false] at hf
    rcases hf with rfl | rfl | rfl | rfl | rfl <;> intro lo hi h <;> cases h <;> decide
  refine ⟨hord, by decide, (coalesce_normal_form fs).2.2 hord _ (by decide)⟩

/-- Gaps merge by adding their bounds, which keeps their meaning only when the bounds are
ordered: `{2-1}`, which matches nothing, followed by `{0-5}` becomes `{2-6}`, which matches two
bytes. -/
theorem coalesce_unordered_gaps :
    coalesce [.gap 2 (some 1), .gap 0 (some 5)] = [.gap 2 (some 6)] ∧
      MatchesAll [.gap 2 (some 6)] [0, 0] ∧
      ¬MatchesAll [.gap 2 (some 1), .gap 0 (some 5)] [0, 0] := by
  refine ⟨by decide, ?_, ?_⟩
  · have h : MatchesAll [.gap 2 (some 6)] ([0, 0] ++ []) :=
      .cons (Fragment.matches_gap_iff.2 ⟨by decide, by simp⟩) .nil
    simpa using h
  · exact Fragment.not_matchesAll_unordered_gap (by decide) _ _

end ContainerProbe.Fragment
