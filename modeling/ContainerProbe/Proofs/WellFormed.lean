import Mathlib
import ContainerProbe.Definition.Basic
import ContainerProbe.Proofs.Coalesce
import ContainerProbe.Proofs.Acceptance

/-!
# Compiled patterns are well formed

The matcher reads a pattern's fragments trusting a shape the compiler gives them: a literal has
bytes, a gap's least bound is at most its greatest, and alternatives have at least one branch,
each a non-empty run of literals and byte sets (a run of pieces, by its type). The reader checks
the bounds of every gap it reads and refuses empty quotations, empty branches and empty
alternatives; coalescing and the windows of byte sequences keep the shape.

The reader also refuses an expression with no fragments, but it checks before coalescing, which
drops gaps of exactly zero bytes. An expression of such gaps only, `{0}` or `[0:0]`, compiles to
a pattern with no fragments at all, which matches every entry.

## Main statements

* `Pattern.compiled_wellFormed`: every fragment of a compiled pattern, from an expression or
  from a byte sequence with its window, is well formed.
* `Pattern.compile_zero_gap`: `{0}` compiles to a pattern without fragments.
-/

namespace ContainerProbe

/-! ## §1 Well-formed fragments -/

/-- A piece as the reader builds it: a literal has bytes. -/
def Piece.WellFormed : Piece → Prop
  | .literal bytes => bytes ≠ []
  | .byteSet _ => True

/-- A run of pieces as the reader builds a branch: at least one piece, each well formed. -/
def Piece.GoodBranch (branch : List Piece) : Prop := branch ≠ [] ∧ ∀ p ∈ branch, p.WellFormed

/-- A fragment as the compiler builds it: a literal has bytes, a gap's least bound is at most
its greatest, and alternatives have at least one branch, each a non-empty run of well-formed
pieces. -/
def Fragment.WellFormed : Fragment → Prop
  | .literal bytes => bytes ≠ []
  | .byteSet _ => True
  | .gap lo hi => ∀ m, hi = some m → lo ≤ m
  | .alternatives branches => branches ≠ [] ∧ ∀ b ∈ branches, Piece.GoodBranch b

theorem Fragment.wellFormed_gap_iff {lo : Nat} {hi : Option Nat} :
    (Fragment.gap lo hi).WellFormed ↔ (Fragment.gap lo hi).Ordered := by
  constructor
  · intro h lo' hi' heq
    simp only [gap.injEq] at heq
    obtain ⟨rfl, rfl⟩ := heq
    exact h hi' rfl
  · intro h m hm
    exact h lo m (by rw [hm])

/-! ## §2 Coalescing keeps the shape -/

theorem Piece.goodBranch_prepend {p : Piece} {out : List Piece} (hp : p.WellFormed)
    (hout : ∀ q ∈ out, q.WellFormed) : Piece.GoodBranch (Piece.prepend p out) := by
  unfold Piece.prepend
  split
  · exact absurd rfl hp
  · rename_i a b rest _
    refine ⟨List.cons_ne_nil _ _, fun q hq => ?_⟩
    rcases List.mem_cons.1 hq with rfl | hq
    · exact List.append_ne_nil_of_left_ne_nil hp _
    · exact hout q (List.mem_cons_of_mem _ hq)
  · refine ⟨List.cons_ne_nil _ _, fun q hq => ?_⟩
    rcases List.mem_cons.1 hq with rfl | hq
    · exact hp
    · exact hout q hq

/-- A branch of well-formed pieces stays a good branch when its literals are joined. -/
theorem Piece.goodBranch_coalesce {branch : List Piece} (h : Piece.GoodBranch branch) :
    Piece.GoodBranch (Piece.coalesce branch) := by
  obtain ⟨hne, hall⟩ := h
  induction branch with
  | nil => exact absurd rfl hne
  | cons p ps ih =>
    have hps : ∀ q ∈ ps, q.WellFormed := fun q hq => hall q (List.mem_cons_of_mem _ hq)
    -- the rest coalesces to well-formed pieces, empty or not
    have hrest : ∀ q ∈ Piece.coalesce ps, q.WellFormed := by
      cases ps with
      | nil => simp [Piece.coalesce]
      | cons q qs => exact (ih (List.cons_ne_nil _ _) hps).2
    exact Piece.goodBranch_prepend (hall p List.mem_cons_self) hrest

/-- The open branch of alternatives, closed by `)` or `|`, is a good branch. -/
theorem Piece.goodBranch_close {current : List Piece} (hne : current ≠ [])
    (hcur : ∀ p ∈ current, p.WellFormed) : Piece.GoodBranch (Piece.coalesce current.reverse) :=
  Piece.goodBranch_coalesce ⟨by simpa using hne, fun p hp => hcur p (List.mem_reverse.1 hp)⟩

theorem Fragment.wellFormed_prepend {f : Fragment} {out : List Fragment} (hf : f.WellFormed)
    (hout : ∀ g ∈ out, g.WellFormed) : ∀ g ∈ Fragment.prepend f out, g.WellFormed := by
  rcases Fragment.prepend_cases f out with ⟨-, heq⟩ | ⟨a, b, rest, rfl, ha, rfl, heq⟩ |
    ⟨lo, hi, lo', hi', rest, rfl, -, rfl, heq⟩ | ⟨-, -, heq⟩ <;> rw [heq]
  · exact hout
  · intro g hg
    rcases List.mem_cons.1 hg with rfl | hg
    · exact List.append_ne_nil_of_left_ne_nil ha _
    · exact hout g (List.mem_cons_of_mem _ hg)
  · intro g hg
    rcases List.mem_cons.1 hg with rfl | hg
    · exact wellFormed_gap_iff.2 (Fragment.ordered_merge (wellFormed_gap_iff.1 hf)
        (wellFormed_gap_iff.1 (hout _ List.mem_cons_self)))
    · exact hout g (List.mem_cons_of_mem _ hg)
  · intro g hg
    rcases List.mem_cons.1 hg with rfl | hg
    · exact hf
    · exact hout g hg

theorem Fragment.wellFormed_coalesce {fs : List Fragment} (h : ∀ f ∈ fs, f.WellFormed) :
    ∀ g ∈ Fragment.coalesce fs, g.WellFormed := by
  induction fs with
  | nil => simp [Fragment.coalesce]
  | cons f fs ih =>
    exact Fragment.wellFormed_prepend (h f List.mem_cons_self)
      (ih fun g hg => h g (List.mem_cons_of_mem _ hg))

/-- Coalescing leaves nothing exactly when every fragment is void. -/
theorem Fragment.coalesce_eq_nil_iff {fs : List Fragment} :
    Fragment.coalesce fs = [] ↔ ∀ f ∈ fs, f.isVoid = true := by
  induction fs with
  | nil => simp [Fragment.coalesce]
  | cons f fs ih =>
    rw [Fragment.coalesce_cons, List.forall_mem_cons, ← ih]
    rcases Fragment.prepend_cases f (Fragment.coalesce fs) with ⟨hv, heq⟩ |
      ⟨a, b, rest, rfl, ha, hout, heq⟩ | ⟨_, _, _, _, _, -, hv, hout, heq⟩ | ⟨hv, -, heq⟩ <;>
      rw [heq]
    · simp [hv]
    · simp [Fragment.isVoid_literal, ha]
    · simp [hv]
    · simp [hv]

/-- The only void fragment the reader builds is the gap of exactly zero bytes. -/
theorem Fragment.isVoid_iff_of_wellFormed {f : Fragment} (hf : f.WellFormed) :
    f.isVoid = true ↔ f = .gap 0 (some 0) := by
  rw [Fragment.isVoid_iff]
  constructor
  · rintro (rfl | h)
    · exact absurd rfl hf
    · exact h
  · exact .inr

/-- A well-formed gap has its least bound below its greatest. -/
theorem Fragment.ordered_of_wellFormed {f : Fragment} (h : f.WellFormed) : f.Ordered := by
  intro lo hi hf
  subst hf
  exact h hi rfl

/-! ## §3 Every reader builds well-formed fragments -/

namespace Pattern.Parser

theorem quoted_ne_nil {c : Cursor} {v : List UInt8} {d : Past c} (h : quoted c = .ok (v, d)) :
    v ≠ [] := by
  obtain ⟨_, -, hbody⟩ := quoted_sound h
  exact hbody.1

theorem gapOfText_wellFormed {start : Nat} {lo hi : List UInt8} {f : Fragment}
    (h : gapOfText start lo hi = .ok f) : f.WellFormed := by
  unfold gapOfText at h
  split at h
  · cases h
  · split at h
    · cases h
      intro m hm
      cases hm
    · split at h
      · cases h
      · split at h
        · cases h
        · -- the bounds were compared before the gap was built
          rename_i m _ n _ hlt
          cases h
          intro k hk
          cases hk
          exact Nat.le_of_not_lt hlt

theorem braceGap_wellFormed {c : Cursor} {f : Fragment} {d : Past c}
    (h : braceGap c = .ok (f, d)) : f.WellFormed := by
  unfold braceGap at h
  split at h
  · cases h
  · dsimp only at h
    split at h
    · split at h
      · cases h
      · split at h
        · cases h
        · split at h
          · cases h
          · -- a greatest bound is compared with the least one
            rename_i m _ _ n _ hlt
            cases h
            intro k hk
            cases hk
            exact Nat.le_of_not_lt hlt
        · cases h
          intro k hk
          cases hk
    · cases h

theorem piece_wellFormed {c : Cursor} {p : Piece} {d : Past c} (h : piece c = .ok (p, d)) :
    p.WellFormed := by
  unfold piece at h
  split at h
  · cases h
  · split at h
    · obtain ⟨v, hq, rfl⟩ := exists_of_map_ok h
      exact quoted_ne_nil hq
    · split at h
      · split at h
        · cases h
        · cases h
        · cases h
          trivial
      · split at h
        · cases h
        · split at h
          · obtain ⟨v, -, rfl⟩ := exists_of_map_ok h
            trivial
          · split at h
            · cases h
            · split at h
              · cases h
              · obtain ⟨v, -, rfl⟩ := exists_of_map_ok (g := fun v => Piece.literal [v]) h
                exact List.cons_ne_nil _ _

/-- The branch loop returns at least one branch, each good, when the branches it was given
and the pieces of the open branch are good. -/
theorem branches_wellFormed {start : Nat} {c : Cursor} {current : List Piece}
    {done : List (List Piece)} {r : List (List Piece)} {d : Past c}
    (h : branches start c current done = .ok (r, d)) (hcur : ∀ p ∈ current, p.WellFormed)
    (hdone : ∀ b ∈ done, Piece.GoodBranch b) : r ≠ [] ∧ ∀ b ∈ r, Piece.GoodBranch b := by
  fun_induction branches start c current done with
  | case1 => cases h
  | case2 => cases h
  | case3 c current done c1 _ body hne done' h41 _ =>
    -- `)` closes the open branch, which is not empty
    obtain rfl : done'.reverse = r := congrArg Prod.fst (Except.ok.inj h)
    have hgood := Piece.goodBranch_close (by simpa using hne) hcur
    refine ⟨by simp [done'], fun b hb => ?_⟩
    rcases List.mem_cons.1 (List.mem_reverse.1 hb) with rfl | hb
    · exact hgood
    · exact hdone b hb
  | case4 => cases h
  | case5 c current done c1 _ q body hc1 hbar hne done' _ hn41 bs e he hok =>
    rename_i ih
    -- `|` closes the open branch and the loop goes on with none open
    obtain rfl : bs = r := congrArg Prod.fst (Except.ok.inj h)
    have hgood := Piece.goodBranch_close (by simpa using hne) hcur
    refine ih hok (by simp) fun b hb => ?_
    rcases List.mem_cons.1 hb with rfl | hb
    · exact hgood
    · exact hdone b hb
  | case6 => cases h
  | case7 => cases h
  | case8 c current done c1 _ q body hc1 hq p d' hd' hpiece _ bs e he hok =>
    rename_i ih
    obtain rfl : bs = r := congrArg Prod.fst (Except.ok.inj h)
    refine ih hok (fun p' hp' => ?_) hdone
    rcases List.mem_cons.1 hp' with rfl | hp'
    · exact piece_wellFormed hpiece
    · exact hcur p' hp'

theorem alternatives_wellFormed {c : Cursor} {f : Fragment} {d : Past c}
    (h : alternatives c = .ok (f, d)) : f.WellFormed := by
  unfold alternatives at h
  split at h
  · cases h
  · split at h
    · cases h
    · rename_i bs e _ hok
      cases h
      exact branches_wellFormed hok (by simp) (by simp)

theorem fragment_wellFormed {c : Cursor} {f : Fragment} {d : Past c}
    (h : fragment c = .ok (f, d)) : f.WellFormed := by
  unfold fragment at h
  split at h
  · cases h
  · split at h
    · obtain ⟨v, hq, rfl⟩ := exists_of_map_ok h
      exact quoted_ne_nil hq
    · split at h
      · split at h
        · cases h
        · -- a numeric bracket is a gap with compared bounds
          rename_i lo hi d' _
          cases hg : gapOfText c.pos lo hi with
          | error => rw [hg] at h; cases h
          | ok g =>
            rw [hg] at h
            cases h
            exact gapOfText_wellFormed hg
        · cases h
          trivial
      · split at h
        · exact braceGap_wellFormed h
        · split at h
          · cases h
            intro m hm
            cases hm
          · split at h
            · obtain ⟨v, -, rfl⟩ := exists_of_map_ok h
              trivial
            · split at h
              · exact alternatives_wellFormed h
              · split at h
                · cases h
                · obtain ⟨v, -, rfl⟩ :=
                    exists_of_map_ok (g := fun v => Fragment.literal [v]) h
                  exact List.cons_ne_nil _ _

/-- The fragment loop adds only fragments the fragment reader built. -/
theorem fragments_wellFormed {c : Cursor} {anchor a : Anchor} {acc fs : List Fragment}
    (h : fragments c anchor acc = .ok (a, fs)) (hacc : ∀ f ∈ acc, f.WellFormed) :
    ∀ f ∈ fs, f.WellFormed := by
  fun_induction fragments c anchor acc with
  | case1 =>
    obtain rfl := congrArg Prod.snd (Except.ok.inj h)
    exact fun f hf => hacc f (List.mem_reverse.1 hf)
  | case2 =>
    obtain rfl := congrArg Prod.snd (Except.ok.inj h)
    exact fun f hf => hacc f (List.mem_reverse.1 hf)
  | case3 => cases h
  | case4 => cases h
  | case5 c acc c1 _ b t hc1 hb f d hd hok _ =>
    rename_i ih
    refine ih h fun g hg => ?_
    rcases List.mem_cons.1 hg with rfl | hg
    · exact fragment_wellFormed hok
    · exact hacc g hg

theorem parse_wellFormed {text : String} {a : Anchor} {fs : List Fragment}
    (h : parse text = .ok (a, fs)) : ∀ f ∈ fs, f.WellFormed := by
  unfold parse at h
  dsimp only at h
  split at h
  · cases h
  · cases h
  · rename_i hok
    obtain ⟨rfl, rfl⟩ := Prod.mk.inj (Except.ok.inj h)
    exact fragments_wellFormed hok (by simp)

end Pattern.Parser

/-! ## §4 Compiled patterns -/

namespace Pattern

theorem compile_wellFormed {raw : String} {p : Pattern} (h : compile raw = .ok p) :
    ∀ f ∈ p.fragments, f.WellFormed := by
  unfold compile ofCanonical at h
  cases hr : Parser.parse (Canonical.normalize raw) with
  | error e =>
    rw [hr] at h
    cases h
  | ok r =>
    rw [hr] at h
    obtain rfl := Except.ok.inj h
    exact Fragment.wellFormed_coalesce (Parser.parse_wellFormed hr)

theorem placeAfterStart_wellFormed {p : Pattern} {lo hi : Nat}
    (hp : ∀ f ∈ p.fragments, f.WellFormed) (hle : lo ≤ hi) :
    ∀ f ∈ (p.placeAfterStart lo hi).fragments, f.WellFormed := by
  refine Fragment.wellFormed_coalesce fun f hf => ?_
  rcases List.mem_cons.1 hf with rfl | hf
  · intro m hm
    cases hm
    exact hle
  · exact hp f hf

theorem placeBeforeEnd_wellFormed {p : Pattern} {lo hi : Nat}
    (hp : ∀ f ∈ p.fragments, f.WellFormed) (hle : lo ≤ hi) :
    ∀ f ∈ (p.placeBeforeEnd lo hi).fragments, f.WellFormed := by
  refine Fragment.wellFormed_coalesce fun f hf => ?_
  rcases List.mem_append.1 hf with hf | hf
  · exact hp f hf
  · rw [List.mem_singleton.1 hf]
    intro m hm
    cases hm
    exact hle

/-- A compiled pattern has no fragments exactly when every fragment its expression spells is a
gap of exactly zero bytes: the reader refuses an expression without fragments before
coalescing drops such gaps. -/
theorem compile_fragments_eq_nil_iff {raw : String} {p : Pattern} (h : compile raw = .ok p) :
    ∃ a fs, Parser.parse (Canonical.normalize raw) = .ok (a, fs) ∧
      (p.fragments = [] ↔ ∀ f ∈ fs, f = .gap 0 (some 0)) := by
  unfold compile ofCanonical at h
  cases hr : Parser.parse (Canonical.normalize raw) with
  | error e =>
    rw [hr] at h
    cases h
  | ok r =>
    rw [hr] at h
    obtain rfl := Except.ok.inj h
    have hwf := Parser.parse_wellFormed hr
    refine ⟨r.1, r.2, rfl, ?_⟩
    show Fragment.coalesce r.2 = [] ↔ _
    rw [Fragment.coalesce_eq_nil_iff]
    exact forall₂_congr fun f hf => Fragment.isVoid_iff_of_wellFormed (hwf f hf)

end Pattern

/-- A window puts a well-formed pattern behind or before a gap whose bounds were compared. -/
theorem SequenceDef.compile_wellFormed {s : SequenceDef} {p : Pattern}
    (h : s.compile = .ok p) : ∀ f ∈ p.fragments, f.WellFormed := by
  unfold SequenceDef.compile at h
  split at h
  · cases h
  · rename_i p₀ h₀
    have hp₀ := Pattern.compile_wellFormed h₀
    dsimp only at h
    split at h
    · split at h
      · cases h
      · cases h
        exact Pattern.placeAfterStart_wellFormed hp₀ (Nat.le_of_not_lt ‹_›)
    · split at h
      · cases h
      · cases h
        exact Pattern.placeBeforeEnd_wellFormed hp₀ (Nat.le_of_not_lt ‹_›)
    · split at h
      · cases h
      · cases h
        exact hp₀

/-- Every fragment of a compiled pattern is well formed, from an expression or from a byte
sequence placed by its window; and a pattern compiled from an expression has fragments unless
the expression spells only gaps of exactly zero bytes. -/
theorem compiled_wellFormed (raw : String) (s : SequenceDef) (p : Pattern) :
    (Pattern.compile raw = .ok p → (∀ f ∈ p.fragments, f.WellFormed) ∧
      ∃ a fs, Pattern.Parser.parse (Canonical.normalize raw) = .ok (a, fs) ∧
        (p.fragments = [] ↔ ∀ f ∈ fs, f = .gap 0 (some 0))) ∧
    (s.compile = .ok p → ∀ f ∈ p.fragments, f.WellFormed) :=
  ⟨fun h => ⟨Pattern.compile_wellFormed h, Pattern.compile_fragments_eq_nil_iff h⟩,
    SequenceDef.compile_wellFormed⟩

theorem compiled_wellFormed_alternatives :
    let p : Pattern := ⟨"00 {2-4} (01 | 'ab')", .floating,
      [.literal [0], .gap 2 (some 4), .alternatives [[.literal [1]], [.literal [97, 98]]]]⟩
    let s : SequenceDef := ⟨"00", some .bof, some 1, some 3⟩
    let q : Pattern := ⟨"00", .atStart, [.gap 1 (some 3), .literal [0]]⟩
    (Pattern.compile p.expression = .ok p ∧ ∀ f ∈ p.fragments, f.WellFormed) ∧
      (s.compile = .ok q ∧ ∀ f ∈ q.fragments, f.WellFormed) := by
  intro p s q
  have hp : Pattern.compile p.expression = .ok p := by decide +kernel
  have hq : s.compile = .ok q := by decide +kernel
  exact ⟨⟨hp, ((compiled_wellFormed p.expression s p).1 hp).1⟩,
    ⟨hq, (compiled_wellFormed p.expression s q).2 hq⟩⟩

/-- The expression `{0}` is one gap of zero bytes: the reader accepts it, and coalescing leaves
a pattern without fragments, which matches every entry. -/
theorem compile_zero_gap :
    Pattern.Parser.parse "{0}" = .ok (.floating, [.gap 0 (some 0)]) ∧
      Pattern.compile "{0}" = .ok ⟨"{0}", .floating, []⟩ :=
  ⟨by decide +kernel, by decide +kernel⟩

end ContainerProbe
