import Mathlib
import ContainerProbe.Proofs.Brackets

/-!
# The reader accepts exactly the grammar

A canonical expression is read as a pattern exactly when its bytes are an expression of
`ContainerProbe.Pattern.Grammar`, and the pattern's anchor is the one the grammar gives by the
leading `^` and the trailing `$`.

The proof goes reader by reader, from the bottom up. Each reader is complete (on a word of its
grammar followed by anything it succeeds and leaves exactly what follows) and sound (whatever it
consumes is a word of its grammar). The readers of single fragments dispatch on the first byte,
and the first bytes of the fragment kinds are apart; the two loops, over the branches of
alternatives and over the fragments of an expression, are read by strong induction on the text
for completeness and by functional induction on the loop for soundness.

## Main statements

* `ofCanonical_ok_iff`: a text is read as a pattern with a given anchor exactly when it is an
  expression of the grammar with that anchor.
* `bracket_gap_not_set`: the text `[1000:00]` also has the form of a byte set, yet it is read as
  a gap, and refused.
-/

namespace ContainerProbe.Pattern

namespace Grammar

open ContainerProbe.Pattern.Parser

/-! ## §1 First bytes of fragments -/

theorem FragmentText.head {f : List UInt8} (h : FragmentText f) :
    ∃ b t, f = b :: t ∧
      (IsHexDigit b ∨ b = 39 ∨ b = 96 ∨ b = 91 ∨ b = 123 ∨ b = 42 ∨ b = 63 ∨ b = 40) := by
  cases h with
  | hex hw =>
    obtain ⟨x, y, rfl, hx, -⟩ := hw
    exact ⟨x, [y], rfl, .inl hx⟩
  | quoted hw =>
    obtain ⟨q, body, hq, -, rfl⟩ := hw
    exact ⟨q, _, rfl, .inr (hq.elim .inl (.inr ∘ .inl))⟩
  | set hw =>
    obtain ⟨content, rfl, -⟩ := hw
    exact ⟨91, _, rfl, by simp⟩
  | gap hw =>
    obtain ⟨content, lo, hi, rfl, -⟩ := hw
    exact ⟨91, _, rfl, by simp⟩
  | brace hw =>
    obtain ⟨inner, rfl, -⟩ := hw
    exact ⟨123, _, rfl, by simp⟩
  | star => exact ⟨42, [], rfl, by simp⟩
  | any => exact ⟨63, [63], rfl, by simp⟩
  | alternatives _ => exact ⟨40, _, rfl, by simp⟩

/-- A fragment starts with none of the bytes the loops stop or branch at. -/
theorem FragmentText.head_not {f : List UInt8} (h : FragmentText f) :
    ∀ b, f.head? = some b → isBlank b = false ∧ b ≠ 36 ∧ b ≠ 94 ∧ b ≠ 124 ∧ b ≠ 41 := by
  obtain ⟨x, t, rfl, hx⟩ := h.head
  intro b hb
  obtain rfl : x = b := by simpa using hb
  rcases hx with hx | rfl | rfl | rfl | rfl | rfl | rfl | rfl
  · exact ⟨hx.not_blank, hx.ne (by decide), hx.ne (by decide), hx.ne (by decide),
      hx.ne (by decide)⟩
  all_goals decide

/-- Blanks before a fragment are skipped up to its first byte. -/
theorem FragmentText.dropWhile_blanks_append {ws f : List UInt8} (hws : Blanks ws)
    (hf : FragmentText f) (X : List UInt8) : (ws ++ f ++ X).dropWhile isBlank = f ++ X := by
  rw [List.append_assoc]
  refine dropWhile_blanks hws fun b hb => (hf.head_not b ?_).1
  obtain ⟨x, t, rfl, -⟩ := hf.head
  simpa using hb

theorem PieceText.fragment {w : List UInt8} (h : PieceText w) : FragmentText w := by
  cases h with
  | hex hw => exact .hex hw
  | quoted hw => exact .quoted hw
  | set hw => exact .set hw
  | any => exact .any

/-- What the branch loop reads up to the closing `)`: the rest of the open branch, blanks, and
the end or a `|` and more branches. A fresh branch has a piece to come. -/
def BranchesFrom (fresh : Bool) (w : List UInt8) : Prop :=
  ∃ b ws more, (Branch b ∨ (fresh = false ∧ b = [])) ∧ Blanks ws ∧
    (more = [] ∨ ∃ rest, more = 124 :: rest ∧ Branches rest) ∧ w = b ++ ws ++ more

theorem branchesFrom_true_iff {w : List UInt8} : BranchesFrom true w ↔ Branches w := by
  constructor
  · rintro ⟨b, ws, more, hb, hws, hmore, rfl⟩
    have hb : Branch b := hb.resolve_right (by simp)
    rcases hmore with rfl | ⟨rest, rfl, hrest⟩
    · simpa using Branches.last hb hws
    · exact .cons hb hws hrest
  · intro h
    cases h with
    | last hb hws => exact ⟨_, _, [], .inl hb, hws, .inl rfl, by simp⟩
    | cons hb hws hrest => exact ⟨_, _, _, .inl hb, hws, .inr ⟨_, rfl, hrest⟩, rfl⟩

theorem Branch.split {b : List UInt8} (h : Branch b) :
    ∃ ws p rb, Blanks ws ∧ PieceText p ∧ (rb = [] ∨ Branch rb) ∧ b = ws ++ p ++ rb := by
  cases h with
  | one hws hp => exact ⟨_, _, [], hws, hp, .inl rfl, by simp⟩
  | cons hws hp hrest => exact ⟨_, _, _, hws, hp, .inr hrest, rfl⟩

/-- A piece read in an open branch joins what the loop reads after it. -/
theorem BranchesFrom.piece {ws p w : List UInt8} (hws : Blanks ws) (hp : PieceText p)
    (h : BranchesFrom false w) (fresh : Bool) : BranchesFrom fresh (ws ++ p ++ w) := by
  obtain ⟨b, ws', more, hb, hws', hmore, rfl⟩ := h
  refine ⟨ws ++ p ++ b, ws', more, .inl ?_, hws', hmore, by simp⟩
  rcases hb with hb | ⟨-, rfl⟩
  · exact .cons hws hp hb
  · simpa using Branch.one hws hp

theorem Body.head {body : List UInt8} (h : Body body) :
    ∃ ws f rest, Blanks ws ∧ FragmentText f ∧ body = ws ++ f ++ rest := by
  cases h with
  | one hws hf => exact ⟨_, _, [], hws, hf, by simp⟩
  | cons hws hf _ => exact ⟨_, _, _, hws, hf, rfl⟩

end Grammar

namespace Parser

open Grammar

/-! ## §2 Single fragments -/

/-- A reader's result mapped to another value keeps its cursor, and the value is the image. -/
theorem exists_of_map_ok {α β : Type} {c : Cursor} {x : Except Fault (α × Past c)} {g : α → β}
    {p : β} {d : Past c} (h : x.map (fun r => (g r.1, r.2)) = .ok (p, d)) :
    ∃ a, x = .ok (a, d) ∧ p = g a := by
  cases x with
  | error => cases h
  | ok r =>
    obtain ⟨a, d'⟩ := r
    obtain ⟨rfl, rfl⟩ := Prod.mk.inj (Except.ok.inj h)
    exact ⟨a, rfl, rfl⟩

theorem misplaced?_of_hex {b : UInt8} (h : IsHexDigit b) : misplaced? b = none := by
  unfold misplaced?
  rw [if_neg (h.ne (by decide)), if_neg (h.ne (by decide)), if_neg (h.ne (by decide)),
    if_neg (h.ne (by decide)), if_neg (h.ne (by decide)), if_neg (h.ne (by decide))]

theorem anyByte_complete {c : Cursor} {x : UInt8} {rest : List UInt8}
    (hc : c.rest = x :: 63 :: rest) : ∃ d, anyByte c = .ok (ByteSet.any, d) ∧ d.1.rest = rest := by
  unfold anyByte
  split
  · rename_i t hcr
    obtain rfl : t = rest := (List.cons.inj (List.cons.inj (hcr.symm.trans hc)).2).2
    exact ⟨_, rfl, rfl⟩
  · rename_i hne
    exact absurd hc (hne _ _)

/-- Read from a `?`, `??` is read. -/
theorem anyByte_sound {c : Cursor} {b : UInt8} {t : List UInt8} {s : ByteSet} {d : Past c}
    (hc : c.rest = b :: t) (hb : b = 63) (h : anyByte c = .ok (s, d)) :
    c.rest = [63, 63] ++ d.1.rest := by
  unfold anyByte at h
  split at h
  · rename_i x t' hcr
    have hd : t' = d.1.rest := congrArg (fun r => r.2.1.rest) (Except.ok.inj h)
    obtain rfl : x = 63 := (List.cons.inj (hcr.symm.trans hc)).1.trans hb
    exact hd ▸ hcr
  · cases h

theorem piece_complete {w rest : List UInt8} (hw : PieceText w) {c : Cursor}
    (hc : c.rest = w ++ rest) : ∃ p d, piece c = .ok (p, d) ∧ d.1.rest = rest := by
  unfold piece
  split
  · rename_i hnil
    obtain ⟨x, t, rfl, -⟩ := hw.fragment.head
    simp [hnil] at hc
  · rename_i b t hcr
    cases hw with
    | hex hw =>
      obtain ⟨x, y, rfl, hx, -⟩ := id hw
      obtain rfl : b = x := (List.cons.inj (hcr.symm.trans hc)).1
      rw [if_neg hx.not_quote, if_neg (hx.ne (by decide)),
        if_neg (by rintro (h | h) <;> exact hx.ne (by decide) h), if_neg (hx.ne (by decide)),
        if_neg (hx.ne (by decide)), misplaced?_of_hex hx]
      obtain ⟨v, d, hok, hr⟩ := hexByte_complete hw hc
      rw [hok]
      exact ⟨_, _, rfl, hr⟩
    | quoted hw =>
      obtain ⟨q, body, hq, hbody, rfl⟩ := hw
      obtain rfl : b = q := (List.cons.inj (hcr.symm.trans hc)).1
      obtain ⟨d, hok, hr⟩ :=
        quoted_complete hbody (show c.rest = b :: (body ++ b :: rest) by rw [hc]; simp)
      rw [if_pos hq, hok]
      exact ⟨_, _, rfl, hr⟩
    | set hw =>
      obtain ⟨content, rfl, hs, hng⟩ := hw
      obtain rfl : b = 91 := (List.cons.inj (hcr.symm.trans hc)).1
      obtain ⟨cls, d, hok, hr⟩ :=
        bracket_set (show c.rest = 91 :: (content ++ 93 :: rest) by rw [hc]; simp) hs hng
      rw [if_neg (by decide), if_pos rfl, hok]
      exact ⟨_, _, rfl, hr⟩
    | any =>
      obtain rfl : b = 63 := (List.cons.inj (hcr.symm.trans hc)).1
      obtain ⟨d, hok, hr⟩ := anyByte_complete hc
      rw [if_neg (by decide), if_neg (by decide), if_neg (by decide), if_pos rfl, hok]
      exact ⟨_, _, rfl, hr⟩

theorem piece_sound {c : Cursor} {p : Piece} {d : Past c} (h : piece c = .ok (p, d)) :
    ∃ w, c.rest = w ++ d.1.rest ∧ PieceText w := by
  unfold piece at h
  split at h
  · cases h
  · rename_i b t hcr
    split_ifs at h with hq h91 hgap hany hparen
    · obtain ⟨v, hok, -⟩ := exists_of_map_ok h
      obtain ⟨w, hs, hw⟩ := quoted_sound_of_quote hcr hq hok
      exact ⟨w, hs, .quoted hw⟩
    · split at h
      · cases h
      · cases h
      · rename_i cls d' hbr
        obtain rfl : d' = d := congrArg Prod.snd (Except.ok.inj h)
        obtain ⟨w, hs, hw⟩ := bracket_set_sound hcr h91 hbr
        exact ⟨w, hs, .set hw⟩
    · cases h
    · obtain ⟨v, hok, -⟩ := exists_of_map_ok h
      exact ⟨[63, 63], anyByte_sound hcr hany hok, .any⟩
    · cases h
    · split at h
      · cases h
      · obtain ⟨v, hok, -⟩ := exists_of_map_ok (g := fun v => Piece.literal [v]) h
        obtain ⟨w, hs, hw⟩ := hexByte_sound hok
        exact ⟨w, hs, .hex hw⟩

/-! ## §3 The branch loop -/

section Branches

variable {start : Nat} {c : Cursor} {current : List Piece} {done : List (List Piece)}
  {rest : List UInt8}

theorem branches_close {t : List UInt8} (h : c.skipBlanks.rest = 41 :: t) (hcur : current ≠ []) :
    ∃ r d, branches start c current done = .ok (r, d) ∧ d.1.rest = t := by
  rw [branches]
  split
  · simp_all
  · rename_i b t' heq
    obtain ⟨rfl, rfl⟩ := List.cons.inj (heq.symm.trans h)
    rw [if_pos (.inr rfl), if_neg (by simpa using hcur), if_pos rfl]
    exact ⟨_, _, rfl, rfl⟩

theorem branches_bar {t : List UInt8} (h : c.skipBlanks.rest = 124 :: t) (hcur : current ≠ [])
    (hnext : ∃ r d, branches start ⟨c.skipBlanks.pos + 1, t⟩ []
      (Piece.coalesce current.reverse :: done) = .ok (r, d) ∧ d.1.rest = rest) :
    ∃ r d, branches start c current done = .ok (r, d) ∧ d.1.rest = rest := by
  rw [branches]
  split
  · simp_all
  · rename_i b t' heq
    obtain ⟨rfl, rfl⟩ := List.cons.inj (heq.symm.trans h)
    rw [if_pos (.inl rfl), if_neg (by simpa using hcur), if_neg (by decide)]
    obtain ⟨r, ⟨e, he⟩, hok, hr⟩ := hnext
    rw [hok]
    exact ⟨_, _, rfl, hr⟩

theorem branches_piece {b : UInt8} {t : List UInt8} (h : c.skipBlanks.rest = b :: t)
    (hb : ¬(b = 124 ∨ b = 41)) {p : Piece} {d : Cursor} {hd : d.rest.length < c.skipBlanks.rest.length}
    (hp : piece c.skipBlanks = .ok (p, ⟨d, hd⟩))
    (hnext : ∃ r e, branches start d (p :: current) done = .ok (r, e) ∧ e.1.rest = rest) :
    ∃ r e, branches start c current done = .ok (r, e) ∧ e.1.rest = rest := by
  rw [branches]
  split
  · simp_all
  · rename_i b' t' heq
    obtain ⟨rfl, rfl⟩ := List.cons.inj (heq.symm.trans h)
    rw [if_neg hb, hp]
    obtain ⟨r, ⟨e, he⟩, hok, hr⟩ := hnext
    dsimp only
    rw [hok]
    exact ⟨_, _, rfl, hr⟩

/-- On what the grammar allows after the pieces read so far, closed by `)`, the branch loop
succeeds and stops right after the `)`. The induction is on the length of the text: every turn
of the loop reads a piece, or a `|` before fresh branches. -/
theorem branches_complete (n : Nat) :
    ∀ {w : List UInt8}, w.length < n → ∀ {c : Cursor} {current : List Piece}
      {done : List (List Piece)}, BranchesFrom current.isEmpty w → c.rest = w ++ 41 :: rest →
      ∃ r d, branches start c current done = .ok (r, d) ∧ d.1.rest = rest := by
  induction n with
  | zero => intro w hw; omega
  | succ n ih =>
    intro w hlen c current done hw hc
    obtain ⟨b, ws, more, hb, hws, hmore, rfl⟩ := hw
    rcases hb with hb | ⟨hfresh, rfl⟩
    · -- a piece of the open branch comes next
      obtain ⟨ws', p, rb, hws', hp, hrb, rfl⟩ := hb.split
      have h1 : c.skipBlanks.rest = p ++ (rb ++ ws ++ more ++ 41 :: rest) := by
        rw [Cursor.skipBlanks_rest, hc, ← hp.fragment.dropWhile_blanks_append hws']
        simp
      obtain ⟨x, t, rfl, -⟩ := hp.fragment.head
      obtain ⟨-, -, -, hx124, hx41⟩ := hp.fragment.head_not x rfl
      obtain ⟨pc, ⟨d, hd⟩, hok, hr⟩ := piece_complete hp h1
      refine branches_piece h1 (by rintro (h | h) <;> contradiction) hok ?_
      refine ih (w := rb ++ ws ++ more) (by simp at hlen ⊢; omega) ?_ hr
      exact ⟨rb, ws, more, hrb.elim (fun h => .inr ⟨rfl, h⟩) .inl, hws, hmore, rfl⟩
    · -- the open branch is done: `)` ends the alternatives, `|` opens a fresh branch
      have hcur : current ≠ [] := by simpa using hfresh
      have hskip : c.skipBlanks.rest = more ++ 41 :: rest := by
        rw [Cursor.skipBlanks_rest, hc, List.nil_append, List.append_assoc]
        rcases hmore with rfl | ⟨rest', rfl, -⟩ <;> exact dropWhile_blanks_cons hws (by decide)
      rcases hmore with rfl | ⟨rest', rfl, hrest'⟩
      · exact branches_close hskip hcur
      · refine branches_bar hskip hcur (ih (by simp at hlen ⊢; omega) ?_ rfl)
        exact branchesFrom_true_iff.2 hrest'

/-- What the branch loop reads, up to the `)` it stops after, is what the grammar allows after
the pieces read so far. -/
theorem branches_sound {r : List (List Piece)} {d : Past c}
    (h : branches start c current done = .ok (r, d)) :
    ∃ w, c.rest = w ++ 41 :: d.1.rest ∧ BranchesFrom current.isEmpty w := by
  fun_induction branches start c current done with
  | case1 => cases h
  | case2 => cases h
  | case3 c current done c1 _ body hne done' h41 _ =>
    -- the open branch ends at `)`
    obtain ⟨ws, hws, hsplit⟩ := c.blanks_skipBlanks
    have hd : body = d.1.rest := congrArg (fun x => x.2.1.rest) (Except.ok.inj h)
    exact ⟨ws, hsplit.trans (by rw [h41, hd]),
      [], ws, [], .inr ⟨by simpa using hne, rfl⟩, hws, .inl rfl, by simp⟩
  | case4 => cases h
  | case5 c current done c1 _ q body hc1 hbar hne done' _ hn41 bs e he hok =>
    rename_i ih
    -- a `|` ends the open branch, and fresh branches follow
    have e' := Except.ok.inj h
    obtain rfl : bs = r := congrArg Prod.fst e'
    have hd : e = d.1 := congrArg (fun x => x.2.1) e'
    obtain ⟨w, hw, hfrom⟩ := ih hok
    obtain rfl : q = 124 := hbar.resolve_right hn41
    obtain ⟨ws, hws, hsplit⟩ := c.blanks_skipBlanks
    refine ⟨ws ++ 124 :: w, hsplit.trans ?_, [], ws, 124 :: w, .inr ⟨by simpa using hne, rfl⟩,
      hws, .inr ⟨w, rfl, branchesFrom_true_iff.1 hfrom⟩, by simp⟩
    dsimp only at hw
    rw [hc1, hw, hd]
    simp
  | case6 => cases h
  | case7 => cases h
  | case8 c current done c1 _ q body hc1 hq p d' hd' hpiece _ bs e he hok =>
    rename_i ih
    -- a piece of the open branch
    have e' := Except.ok.inj h
    obtain rfl : bs = r := congrArg Prod.fst e'
    have hd : e = d.1 := congrArg (fun x => x.2.1) e'
    obtain ⟨w, hw, hfrom⟩ := ih hok
    obtain ⟨pw, hpw, hp⟩ := piece_sound hpiece
    obtain ⟨ws, hws, hsplit⟩ := c.blanks_skipBlanks
    refine ⟨ws ++ pw ++ w, hsplit.trans ?_, hfrom.piece hws hp _⟩
    dsimp only at hpw hw
    rw [hpw, hw, hd]
    simp

end Branches

/-! ## §4 Alternatives and fragments -/

theorem alternatives_complete {c : Cursor} {x : UInt8} {bs rest : List UInt8} (hbs : Branches bs)
    (hc : c.rest = x :: (bs ++ 41 :: rest)) :
    ∃ f d, alternatives c = .ok (f, d) ∧ d.1.rest = rest := by
  unfold alternatives
  split
  · simp_all
  · rename_i x' t hcr
    obtain rfl : t = bs ++ 41 :: rest := (List.cons.inj (hcr.symm.trans hc)).2
    obtain ⟨r, ⟨d, hd⟩, hok, hr⟩ : ∃ r d, branches c.pos ⟨c.pos + 1, bs ++ 41 :: rest⟩ [] [] =
        .ok (r, d) ∧ d.1.rest = rest :=
      branches_complete _ (Nat.lt_succ_self _) (branchesFrom_true_iff.2 hbs) rfl
    rw [hok]
    exact ⟨_, _, rfl, hr⟩

theorem alternatives_sound {c : Cursor} {f : Fragment} {d : Past c}
    (h : alternatives c = .ok (f, d)) :
    ∃ x bs, c.rest = x :: (bs ++ 41 :: d.1.rest) ∧ Branches bs := by
  unfold alternatives at h
  split at h
  · cases h
  · rename_i x t hcr
    split at h
    · cases h
    · rename_i bs e he hok
      have hd : e = d.1 := congrArg (fun r => r.2.1) (Except.ok.inj h)
      obtain ⟨w, hw, hfrom⟩ := branches_sound hok
      refine ⟨x, w, hcr.trans ?_, branchesFrom_true_iff.1 hfrom⟩
      dsimp only at hw
      rw [hw, hd]

theorem fragment_complete {w rest : List UInt8} (hw : FragmentText w) {c : Cursor}
    (hc : c.rest = w ++ rest) : ∃ f d, fragment c = .ok (f, d) ∧ d.1.rest = rest := by
  unfold fragment
  split
  · rename_i hnil
    obtain ⟨x, t, rfl, -⟩ := hw.head
    simp [hnil] at hc
  · rename_i b t hcr
    cases hw with
    | hex hw =>
      obtain ⟨x, y, rfl, hx, -⟩ := id hw
      obtain rfl : b = x := (List.cons.inj (hcr.symm.trans hc)).1
      rw [if_neg hx.not_quote, if_neg (hx.ne (by decide)), if_neg (hx.ne (by decide)),
        if_neg (hx.ne (by decide)), if_neg (hx.ne (by decide)), if_neg (hx.ne (by decide)),
        misplaced?_of_hex hx]
      obtain ⟨v, d, hok, hr⟩ := hexByte_complete hw hc
      rw [hok]
      exact ⟨_, _, rfl, hr⟩
    | quoted hw =>
      obtain ⟨q, body, hq, hbody, rfl⟩ := hw
      obtain rfl : b = q := (List.cons.inj (hcr.symm.trans hc)).1
      obtain ⟨d, hok, hr⟩ :=
        quoted_complete hbody (show c.rest = b :: (body ++ b :: rest) by rw [hc]; simp)
      rw [if_pos hq, hok]
      exact ⟨_, _, rfl, hr⟩
    | set hw =>
      obtain ⟨content, rfl, hs, hng⟩ := hw
      obtain rfl : b = 91 := (List.cons.inj (hcr.symm.trans hc)).1
      obtain ⟨cls, d, hok, hr⟩ :=
        bracket_set (show c.rest = 91 :: (content ++ 93 :: rest) by rw [hc]; simp) hs hng
      rw [if_neg (by decide), if_pos rfl, hok]
      exact ⟨_, _, rfl, hr⟩
    | gap hw =>
      obtain ⟨content, lo, hi, rfl, hg, hb⟩ := hw
      obtain rfl : b = 91 := (List.cons.inj (hcr.symm.trans hc)).1
      obtain ⟨d, hok, hr⟩ :=
        bracket_gap (show c.rest = 91 :: (content ++ 93 :: rest) by rw [hc]; simp) hg
      obtain ⟨f, hf⟩ : ∃ f, gapOfText c.pos lo hi = .ok f := gapOfText_ok_iff.2 hb
      rw [if_neg (by decide), if_pos rfl, hok]
      dsimp only
      rw [hf]
      exact ⟨_, _, rfl, hr⟩
    | brace hw =>
      obtain ⟨inner, rfl, hform⟩ := hw
      obtain rfl : b = 123 := (List.cons.inj (hcr.symm.trans hc)).1
      obtain ⟨f, d, hok, hr⟩ :=
        braceGap_complete (show c.rest = 123 :: (inner ++ 125 :: rest) by rw [hc]; simp) hform
      rw [if_neg (by decide), if_neg (by decide), if_pos rfl, hok]
      exact ⟨_, _, rfl, hr⟩
    | star =>
      obtain ⟨rfl, rfl⟩ := List.cons.inj (hcr.symm.trans hc)
      rw [if_neg (by decide), if_neg (by decide), if_neg (by decide), if_pos rfl]
      exact ⟨_, _, rfl, rfl⟩
    | any =>
      obtain rfl : b = 63 := (List.cons.inj (hcr.symm.trans hc)).1
      obtain ⟨d, hok, hr⟩ := anyByte_complete hc
      rw [if_neg (by decide), if_neg (by decide), if_neg (by decide), if_neg (by decide),
        if_pos rfl, hok]
      exact ⟨_, _, rfl, hr⟩
    | alternatives hbs =>
      obtain rfl : b = 40 := (List.cons.inj (hcr.symm.trans hc)).1
      obtain ⟨f, d, hok, hr⟩ :=
        alternatives_complete hbs (show c.rest = 40 :: (_ ++ 41 :: rest) by rw [hc]; simp)
      rw [if_neg (by decide), if_neg (by decide), if_neg (by decide), if_neg (by decide),
        if_neg (by decide), if_pos rfl, hok]
      exact ⟨_, _, rfl, hr⟩

theorem fragment_sound {c : Cursor} {f : Fragment} {d : Past c} (h : fragment c = .ok (f, d)) :
    ∃ w, c.rest = w ++ d.1.rest ∧ FragmentText w := by
  unfold fragment at h
  split at h
  · cases h
  · rename_i b t hcr
    split_ifs at h with hq h91 h123 h42 h63 h40
    · obtain ⟨v, hok, -⟩ := exists_of_map_ok h
      obtain ⟨w, hs, hw⟩ := quoted_sound_of_quote hcr hq hok
      exact ⟨w, hs, .quoted hw⟩
    · split at h
      · cases h
      · -- a gap: its bounds must be valid
        rename_i lo hi d' hbr
        cases hg : gapOfText c.pos lo hi with
        | error => rw [hg] at h; cases h
        | ok g =>
          rw [hg] at h
          obtain rfl : d' = d := congrArg Prod.snd (Except.ok.inj h)
          obtain ⟨b', content, hs, hform⟩ := bracket_sound hbr
          obtain rfl : b' = 91 := (List.cons.inj (hs.symm.trans hcr)).1.trans h91
          exact ⟨91 :: content ++ [93], hs.trans (by simp),
            .gap ⟨content, lo, hi, rfl, hform, gapOfText_ok_iff.1 ⟨g, hg⟩⟩⟩
      · rename_i cls d' hbr
        obtain rfl : d' = d := congrArg Prod.snd (Except.ok.inj h)
        obtain ⟨w, hs, hw⟩ := bracket_set_sound hcr h91 hbr
        exact ⟨w, hs, .set hw⟩
    · obtain ⟨b', inner, hs, hform⟩ := braceGap_sound h
      obtain rfl : b' = 123 := (List.cons.inj (hs.symm.trans hcr)).1.trans h123
      exact ⟨123 :: inner ++ [125], hs.trans (by simp), .brace ⟨inner, rfl, hform⟩⟩
    · have hd : t = d.1.rest := congrArg (fun r => r.2.1.rest) (Except.ok.inj h)
      exact ⟨[42], hcr.trans (by rw [h42, ← hd]; rfl), .star⟩
    · obtain ⟨v, hok, -⟩ := exists_of_map_ok h
      exact ⟨[63, 63], anyByte_sound hcr h63 hok, .any⟩
    · obtain ⟨x, bs, hs, hbs⟩ := alternatives_sound h
      obtain rfl : x = 40 := (List.cons.inj (hs.symm.trans hcr)).1.trans h40
      exact ⟨40 :: bs ++ [41], hs.trans (by simp), .alternatives hbs⟩
    · split at h
      · cases h
      · obtain ⟨v, hok, -⟩ := exists_of_map_ok (g := fun v => Fragment.literal [v]) h
        obtain ⟨w, hs, hw⟩ := hexByte_sound hok
        exact ⟨w, hs, .hex hw⟩

/-! ## §5 The fragment loop -/

section Fragments

variable {c : Cursor} {anchor : Anchor} {acc : List Fragment}

theorem fragments_end (h : c.skipBlanks.rest = []) :
    fragments c anchor acc = .ok (anchor, acc.reverse) := by
  rw [fragments]
  split
  · rfl
  · simp_all

theorem fragments_dollar {t : List UInt8} (h : c.skipBlanks.rest = 36 :: t) (ht : Blanks t) :
    fragments c anchor acc = .ok (anchor.combine .atEnd, acc.reverse) := by
  rw [fragments]
  split
  · simp_all
  · rename_i b t' heq
    obtain ⟨rfl, rfl⟩ := List.cons.inj (heq.symm.trans h)
    rw [if_pos rfl, if_pos (by rw [skipWhile_rest, dropWhile_of_forall ht]; rfl)]

theorem fragments_step {b : UInt8} {t : List UInt8} (h : c.skipBlanks.rest = b :: t) (hb : b ≠ 36)
    {f : Fragment} {d : Cursor} {hd : d.rest.length < c.skipBlanks.rest.length}
    (hf : fragment c.skipBlanks = .ok (f, ⟨d, hd⟩)) :
    fragments c anchor acc = fragments d anchor (f :: acc) := by
  rw [fragments]
  split
  · simp_all
  · rename_i b' t' heq
    obtain ⟨rfl, rfl⟩ := List.cons.inj (heq.symm.trans h)
    rw [if_neg hb, hf]

/-- Once the fragments are read, the loop reads the tail: blanks, or a `$` with only blanks
after it. -/
theorem fragments_tail {dollar : Bool} {tail p : List UInt8} (ht : Tail dollar tail)
    (hp : Blanks p) (hc : p ++ c.rest = tail) :
    fragments c anchor acc =
      .ok (anchor.combine (if dollar then .atEnd else .floating), acc.reverse) := by
  have hskip : c.skipBlanks.rest = tail.dropWhile isBlank := by
    rw [Cursor.skipBlanks_rest, ← hc, List.dropWhile_append_of_pos hp]
  cases ht with
  | blanks hws =>
    rw [if_neg Bool.false_ne_true, Anchor.combine_floating]
    exact fragments_end (by rw [hskip, dropWhile_of_forall hws])
  | dollar hws hws' =>
    rw [if_pos rfl]
    refine fragments_dollar ?_ hws'
    rw [hskip, dropWhile_blanks_cons hws (by decide)]

/-- The loop reads one fragment after blanks, from a cursor at most some blanks before them. -/
theorem fragments_step_of {ws f X p : List UInt8} (hws : Blanks ws) (hf : FragmentText f)
    (hp : Blanks p) (hc : p ++ c.rest = ws ++ f ++ X) :
    ∃ fr d, d.rest = X ∧ fragments c anchor acc = fragments d anchor (fr :: acc) := by
  have h1 : c.skipBlanks.rest = f ++ X := by
    rw [Cursor.skipBlanks_rest, ← List.dropWhile_append_of_pos hp, hc,
      hf.dropWhile_blanks_append hws]
  obtain ⟨fr, ⟨d, hd⟩, hok, hr⟩ := fragment_complete hf h1
  obtain ⟨x, t, rfl, -⟩ := hf.head
  exact ⟨fr, d, hr, fragments_step h1 (hf.head_not x rfl).2.1 hok⟩

/-- On fragments and a tail, the loop succeeds from a cursor at most some blanks before them,
with the anchor the tail gives, and gathers a fragment or more. -/
theorem fragments_complete {body : List UInt8} (hbody : Body body) {dollar : Bool}
    {tail : List UInt8} (ht : Tail dollar tail) :
    ∀ {p : List UInt8} {c : Cursor} (acc : List Fragment), Blanks p →
      p ++ c.rest = body ++ tail →
      ∃ fs, fragments c anchor acc =
        .ok (anchor.combine (if dollar then .atEnd else .floating), fs) ∧
        acc.length < fs.length := by
  induction hbody with
  | one hws hf =>
    intro p c acc hp hc
    obtain ⟨fr, d, hr, heq⟩ := fragments_step_of hws hf hp hc
    rw [heq, fragments_tail ht blanks_nil (by rw [hr]; rfl)]
    exact ⟨_, rfl, by simp⟩
  | @cons ws f rest hws hf _ ih =>
    intro p c acc hp hc
    obtain ⟨fr, d, hr, heq⟩ := fragments_step_of (X := rest ++ tail) hws hf hp (by rw [hc]; simp)
    obtain ⟨fs, hok, hlen⟩ := ih (fr :: acc) blanks_nil (by rw [hr]; rfl)
    exact ⟨fs, heq ▸ hok, by simp at hlen; omega⟩

/-- What the fragment loop reads is fragments and a tail, the anchor is the one the tail
gives, and with no fragment read it returns what it had gathered. -/
theorem fragments_sound {a : Anchor} {fs : List Fragment}
    (h : fragments c anchor acc = .ok (a, fs)) :
    ∃ body dollar tail, c.rest = body ++ tail ∧ Tail dollar tail ∧
      a = anchor.combine (if dollar then .atEnd else .floating) ∧
      (Body body ∨ (body = [] ∧ fs = acc.reverse)) := by
  fun_induction fragments c anchor acc with
  | case1 c acc c1 _ hnil =>
    obtain ⟨ws, hws, hsplit⟩ := c.blanks_skipBlanks
    have e := Except.ok.inj h
    have hnil : c.skipBlanks.rest = [] := hnil
    rw [hnil, List.append_nil] at hsplit
    refine ⟨[], false, ws, hsplit, .blanks hws, ?_, .inr ⟨rfl, ?_⟩⟩
    · simpa using (congrArg Prod.fst e).symm
    · exact (congrArg Prod.snd e).symm
  | case2 c acc c1 _ t hempty h36 =>
    -- a `$` with only blanks after it
    obtain ⟨ws, hws, hsplit⟩ := c.blanks_skipBlanks
    have e := Except.ok.inj h
    have ht : Blanks t := by
      rw [List.isEmpty_iff, skipWhile_rest, List.dropWhile_eq_nil_iff] at hempty
      exact hempty
    have h36 : c.skipBlanks.rest = 36 :: t := h36
    rw [h36] at hsplit
    refine ⟨[], true, ws ++ 36 :: t, hsplit, .dollar hws ht, ?_,
      .inr ⟨rfl, (congrArg Prod.snd e).symm⟩⟩
    simpa using (congrArg Prod.fst e).symm
  | case3 => cases h
  | case4 => cases h
  | case5 c acc c1 _ b t hc1 hb f d hd hok _ =>
    rename_i ih
    obtain ⟨body, dollar, tail, hr, ht, ha, hbody⟩ := ih h
    obtain ⟨fw, hfw, hf⟩ := fragment_sound hok
    obtain ⟨ws, hws, hsplit⟩ := c.blanks_skipBlanks
    refine ⟨ws ++ fw ++ body, dollar, tail, ?_, ht, ha, .inl ?_⟩
    · dsimp only at hfw
      rw [hsplit, hfw, hr]
      simp
    · rcases hbody with hbody | ⟨rfl, -⟩
      · exact .cons hws hf hbody
      · simpa using Body.one hws hf

end Fragments

/-! ## §6 Expressions -/

/-- A text is read as fragments with an anchor exactly when it is an expression of the grammar
with that anchor. -/
theorem parse_ok_iff (text : String) (a : Anchor) :
    (∃ fs, parse text = .ok (a, fs)) ↔ Expression text.toUTF8.toList a := by
  unfold parse
  dsimp only
  have hrest := skipWhile_rest isBlank 0 text.toUTF8.toList
  generalize skipWhile isBlank 0 text.toUTF8.toList = c0 at hrest ⊢
  constructor
  · rintro ⟨fs, h⟩
    split at h
    · cases h
    · cases h
    · rename_i anchor fs' hne heq
      obtain ⟨rfl, rfl⟩ := Prod.mk.inj (Except.ok.inj h)
      -- the fragments start after the blanks and the `^`, if there is one
      obtain ⟨caret, c, hc0, hfr⟩ : ∃ (caret : Bool) (c : Cursor),
          c0.rest = (if caret then [94] else []) ++ c.rest ∧
          fragments c (if caret then .atStart else .floating) [] = .ok (anchor, fs') := by
        cases hr : c0.rest with
        | nil =>
          rw [hr] at heq
          exact ⟨false, c0, by simp [hr], heq⟩
        | cons y more =>
          rw [hr] at heq
          by_cases hy : y = 94
          · subst hy
            simp only at heq
            exact ⟨true, ⟨c0.pos + 1, more⟩, rfl, heq⟩
          · simp only [List.cons.injEq, hy, false_and, imp_self, implies_true] at heq
            exact ⟨false, c0, by simp [hr], heq⟩
      obtain ⟨body, dollar, tail, hbt, ht, ha, hbody⟩ := fragments_sound hfr
      have hbody : Body body := hbody.resolve_right fun h => hne h.2
      refine ⟨text.toUTF8.toList.takeWhile isBlank, body, tail, caret, dollar,
        fun _ hb => List.mem_takeWhile_imp hb, hbody, ht, ?_, ha⟩
      conv_lhs => rw [← List.takeWhile_append_dropWhile (p := isBlank) (l := text.toUTF8.toList)]
      rw [← hrest, hc0, hbt]
      simp
  · rintro ⟨ws, body, tail, caret, dollar, hws, hbody, ht, hs, rfl⟩
    -- after the blanks comes the `^`, if there is one, and then the fragments
    have hc0 : c0.rest = ((if caret then [94] else []) ++ (body ++ tail)).dropWhile isBlank := by
      rw [hrest, hs, List.append_assoc, List.append_assoc, List.dropWhile_append_of_pos hws]
    cases caret
    · obtain ⟨ws', f, rest, hws', hf, rfl⟩ := hbody.head
      obtain ⟨x, t, rfl, -⟩ := hf.head
      obtain ⟨-, -, hx94, -⟩ := hf.head_not x rfl
      have hr : c0.rest = x :: (t ++ (rest ++ tail)) := by
        rw [hc0, if_neg Bool.false_ne_true, List.nil_append, List.append_assoc,
          hf.dropWhile_blanks_append hws', List.cons_append]
      obtain ⟨fs, hok, hlen⟩ : ∃ fs, fragments c0 .floating [] =
          .ok (Anchor.floating.combine (if dollar then .atEnd else .floating), fs) ∧
          ([] : List Fragment).length < fs.length :=
        fragments_complete hbody ht [] hws' (by rw [hr]; simp)
      rw [hr]
      simp only [List.cons.injEq, hx94, false_and, imp_self, implies_true]
      rw [hok]
      obtain ⟨f0, fs0, rfl⟩ := List.exists_cons_of_ne_nil (List.ne_nil_of_length_pos hlen)
      exact ⟨_, rfl⟩
    · have hr : c0.rest = 94 :: (body ++ tail) := by
        rw [hc0, if_pos rfl]
        exact List.dropWhile_cons_of_neg (by decide)
      obtain ⟨fs, hok, hlen⟩ : ∃ fs, fragments ⟨c0.pos + 1, body ++ tail⟩ .atStart [] =
          .ok (Anchor.atStart.combine (if dollar then .atEnd else .floating), fs) ∧
          ([] : List Fragment).length < fs.length :=
        fragments_complete hbody ht [] blanks_nil rfl
      rw [hr]
      simp only
      rw [hok]
      obtain ⟨f0, fs0, rfl⟩ := List.exists_cons_of_ne_nil (List.ne_nil_of_length_pos hlen)
      exact ⟨_, rfl⟩

end Parser

open Grammar

/-- A canonical expression compiles to a pattern with anchor `a` exactly when its bytes are an
expression of the grammar with that anchor: `^` anchors at the start, a trailing `$` at the end,
both exactly, neither nowhere. A bracket of the numeric gap form is a gap and only a gap. -/
theorem ofCanonical_ok_iff (expression : String) (a : Anchor) :
    (∃ p, ofCanonical expression = .ok p ∧ p.anchor = a) ↔
      Expression expression.toUTF8.toList a := by
  rw [← Parser.parse_ok_iff]
  unfold ofCanonical
  constructor
  · rintro ⟨p, hp, rfl⟩
    cases hr : Parser.parse expression with
    | error e =>
      rw [hr] at hp
      cases hp
    | ok r =>
      rw [hr] at hp
      obtain rfl := Except.ok.inj hp
      exact ⟨r.2, rfl⟩
  · rintro ⟨fs, hfs⟩
    refine ⟨make expression a fs, ?_, rfl⟩
    rw [hfs]
    rfl

/-- The bracket text `1000:00` has the set form (members `10` and `00:00`) and the gap form
(bounds `1000` and `00`, not both of two digits). It is read as the gap, whose least bound exceeds
its greatest, so `[1000:00]` does not compile. -/
theorem bracket_gap_not_set :
    SetForm [49, 48, 48, 48, 58, 48, 48] ∧ GapForm [49, 48, 48, 48, 58, 48, 48] [49, 48, 48, 48] [48, 48] ∧
      ofCanonical "[1000:00]" = .error (.badPattern 0 .gapMinExceedsMax) := by
  have hd : IsHexDigit 48 := by decide
  refine ⟨⟨[], [], _, blanks_nil, .inl rfl, ⟨[], [49, 48], [48, 48, 58, 48, 48], blanks_nil.delims,
    .byte ⟨49, 48, rfl, by decide, hd⟩,
    .member (d := []) blanks_nil.delims (.range ⟨48, 48, rfl, hd, hd⟩ blanks_nil blanks_nil
      ⟨48, 48, rfl, hd, hd⟩) (.close blanks_nil.delims), rfl⟩, rfl⟩, ?_, by decide +kernel⟩
  have hdigits : ∀ b ∈ ([49, 48, 48, 48] : List UInt8), IsDigit b := by
    intro b hb
    simp only [List.mem_cons, List.not_mem_nil, or_false] at hb
    rcases hb with rfl | rfl | rfl | rfl <;> decide
  exact ⟨[], [], [], [], blanks_nil, blanks_nil, blanks_nil, blanks_nil, rfl, ⟨by simp, hdigits⟩,
    .inl ⟨by simp, fun b hb => hdigits b (by simp at hb ⊢; simp [hb])⟩, by simp⟩

end ContainerProbe.Pattern
