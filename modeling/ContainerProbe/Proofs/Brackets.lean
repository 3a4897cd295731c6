import Mathlib
import ContainerProbe.Proofs.Grammar

/-!
# Reading brackets and braces

The readers of byte sets, numeric gaps and brace gaps are proved complete and sound against
their words of `ContainerProbe.Pattern.Grammar`: on a word followed by anything they succeed and
leave what follows, and whatever they consume is a word.

A bracket is read twice. A quote-aware scan finds its closing `]`; its text, if it has the gap
form, is a gap, and otherwise the member loop reads it again from the start as a byte set. Two
facts keep the member loop in step with the grammar. After a lone hex byte the loop skips blanks
and reads a range if it meets `:`; in a word of the grammar the next byte after those blanks is
a comma, a member's first byte or the closing `]`, never `:`. And the loop skips leading
separators itself, so its lemmas are stated for a cursor that may already have passed over some
of them.
-/

namespace ContainerProbe.Pattern

namespace Grammar

open ContainerProbe.Pattern.Parser

/-! ## §1 Separators and members -/

theorem Delims.all {d : List UInt8} (h : Delims d) : ∀ b ∈ d, isDelim b = true := by
  intro b hb
  rcases h b hb with h | h <;> simp [h]

theorem Delims.append {d d' : List UInt8} (h : Delims d) (h' : Delims d') : Delims (d ++ d') := by
  intro b hb
  rcases List.mem_append.1 hb with hb | hb
  · exact h b hb
  · exact h' b hb

theorem Delims.clean {d : List UInt8} (h : Delims d) : Clean d :=
  Clean.of_forall fun b hb => by
    rcases h b hb with h | rfl
    · have := isBlank_iff.1 h
      refine ⟨?_, ?_, ?_, ?_⟩ <;> (rintro rfl; simp at this)
    · decide

/-- After separators, the first byte that is not blank is a comma or the first byte of what
follows them. -/
theorem Delims.head_dropWhile {d y : List UInt8} (hd : Delims d)
    (hy : ∀ b, y.head? = some b → isBlank b = false) {b : UInt8} {more : List UInt8}
    (h : (d ++ y).dropWhile isBlank = b :: more) : b = 44 ∨ y.head? = some b := by
  induction d with
  | nil =>
    rw [List.nil_append, dropWhile_self hy] at h
    simp [h]
  | cons x d ih =>
    rw [List.cons_append, List.dropWhile_cons] at h
    by_cases hx : isBlank x = true
    · rw [if_pos hx] at h
      exact ih (fun b hb => hd b (List.mem_cons_of_mem _ hb)) h
    · rw [if_neg hx] at h
      obtain ⟨rfl, -⟩ := List.cons.inj h
      exact .inl ((hd x List.mem_cons_self).resolve_left hx)

theorem IsHexDigit.not_delim {b : UInt8} (h : IsHexDigit b) : isDelim b = false := by
  simp only [isDelim, h.not_blank, Bool.false_or, beq_eq_false_iff_ne]
  exact h.ne (by decide)

theorem IsHexDigit.not_quote {b : UInt8} (h : IsHexDigit b) : ¬(b = 39 ∨ b = 96) := by
  rintro (rfl | rfl) <;> exact absurd h (by decide)

theorem Member.head {m : List UInt8} (h : Member m) :
    ∃ b t, m = b :: t ∧ (IsHexDigit b ∨ b = 39 ∨ b = 96) := by
  cases h with
  | byte hw =>
    obtain ⟨x, y, rfl, hx, -⟩ := hw
    exact ⟨x, [y], rfl, .inl hx⟩
  | range hlo _ _ _ =>
    obtain ⟨x, y, rfl, hx, -⟩ := hlo
    exact ⟨x, _, rfl, .inl hx⟩
  | text hw =>
    obtain ⟨q, body, hq, -, rfl⟩ := hw
    exact ⟨q, body ++ [q], rfl, .inr hq⟩

/-- A member starts with none of the bytes the loops stop or branch at. -/
theorem Member.head_not_delim {m : List UInt8} (h : Member m) :
    ∀ b, m.head? = some b → isDelim b = false ∧ b ≠ 58 ∧ b ≠ 93 ∧ b ≠ 33 := by
  obtain ⟨x, t, rfl, hx⟩ := h.head
  intro b hb
  obtain rfl : x = b := by simpa using hb
  rcases hx with hx | rfl | rfl
  · exact ⟨hx.not_delim, hx.ne (by decide), hx.ne (by decide), hx.ne (by decide)⟩
  · decide
  · decide

theorem Member.head_not_blank {m : List UInt8} (h : Member m) :
    ∀ b, m.head? = some b → isBlank b = false := fun b hb => by
  have := (h.head_not_delim b hb).1
  simp only [isDelim, Bool.or_eq_false_iff] at this
  exact this.1

theorem HexByte.clean {w : List UInt8} (h : HexByte w) : Clean w := by
  obtain ⟨x, y, rfl, hx, hy⟩ := h
  refine Clean.of_forall fun b hb => ?_
  have hb' : IsHexDigit b := by
    rcases List.mem_cons.1 hb with rfl | hb
    · exact hx
    · rw [List.mem_singleton.1 hb]; exact hy
  exact ⟨hb'.ne (by decide), hb'.ne (by decide), hb'.ne (by decide), hb'.ne (by decide)⟩

theorem Quoted.clean {w : List UInt8} (h : Quoted w) : Clean w := by
  obtain ⟨q, body, hq, ⟨-, hb, -⟩, rfl⟩ := h
  exact .quote hq hb .nil

theorem Member.clean {m : List UInt8} (h : Member m) : Clean m := by
  cases h with
  | byte hw => exact hw.clean
  | range hlo h₁ h₂ hhi =>
    exact ((hlo.clean.append h₁.clean).append
      (.plain (by decide) (by decide) (by decide) (by decide) h₂.clean)).append hhi.clean
  | text hw => exact hw.clean

theorem MemberRun.clean {r : List UInt8} (h : MemberRun r) : Clean r := by
  induction h with
  | close hd => exact hd.clean
  | member hd hm _ ih => exact (hd.clean.append hm.clean).append ih

theorem MemberRun.delims_append {d r : List UInt8} (hd : Delims d) (h : MemberRun r) :
    MemberRun (d ++ r) := by
  cases h with
  | close hd' => exact .close (hd.append hd')
  | member hd' hm hr =>
    rw [← List.append_assoc, ← List.append_assoc]
    exact .member (hd.append hd') hm hr

theorem Members.run {ms : List UInt8} (h : Members ms) : MemberRun ms := by
  obtain ⟨d, m, rest, hd, hm, hr, rfl⟩ := h
  exact .member hd hm hr

theorem Members.clean {ms : List UInt8} (h : Members ms) : Clean ms := h.run.clean

theorem Members.of_member {d m r : List UInt8} (hd : Delims d) (hm : Member m)
    (hr : Members r ∨ Delims r) : Members (d ++ m ++ r) :=
  ⟨d, m, r, hd, hm, hr.elim Members.run MemberRun.close, rfl⟩

/-- A run of members is one or more members, or only separators. -/
theorem MemberRun.members_or_delims {r : List UInt8} (h : MemberRun r) : Members r ∨ Delims r := by
  cases h with
  | close hd => exact .inr hd
  | member hd hm hr => exact .inl ⟨_, _, _, hd, hm, hr, rfl⟩

/-- In a word of the grammar, the first byte after the blanks that follow a lone hex byte is
never `:`, so the loop does not mistake it for a range. -/
theorem MemberRun.not_colon {r : List UInt8} (h : MemberRun r) (rest : List UInt8) :
    ∀ more, (r ++ 93 :: rest).dropWhile isBlank ≠ 58 :: more := by
  intro more heq
  cases h with
  | close hd =>
    rcases hd.head_dropWhile (fun b hb => by simp at hb; subst hb; rfl) heq with h | h
    · cases h
    · simp at h
  | member hd hm _ =>
    obtain ⟨x, t, rfl, -⟩ := hm.head
    rw [List.append_assoc, List.append_assoc, List.cons_append] at heq
    rcases hd.head_dropWhile (fun b hb => hm.head_not_blank b (by simpa using hb)) heq with h | h
    · cases h
    · exact (hm.head_not_delim 58 (by simpa using h)).2.1 rfl

theorem GapForm.clean {content lo hi : List UInt8} (h : GapForm content lo hi) : Clean content := by
  obtain ⟨ws₁, ws₂, ws₃, ws₄, h₁, h₂, h₃, h₄, rfl, hlo, hhi, -⟩ := h
  have hhi' : Clean hi := by
    rcases hhi with hhi | rfl
    · exact hhi.clean
    · exact .plain (by decide) (by decide) (by decide) (by decide) .nil
  exact ((((h₁.clean.append hlo.clean).append h₂.clean).append
    (.plain (by decide) (by decide) (by decide) (by decide) h₃.clean)).append hhi').append h₄.clean

theorem negation_clean {neg : List UInt8} (h : neg = [] ∨ neg = [33]) : Clean neg := by
  rcases h with rfl | rfl
  · exact .nil
  · exact .plain (by decide) (by decide) (by decide) (by decide) .nil

/-- The first byte of members after blanks is never `!`. -/
theorem Members.head_ne_bang {ms : List UInt8} (h : Members ms) (t : List UInt8) :
    ((ms ++ t).dropWhile isBlank).head? ≠ some 33 := by
  obtain ⟨d, m, r, hd, hm, hr, rfl⟩ := h
  obtain ⟨x, u, rfl, -⟩ := hm.head
  intro h
  cases hdw : ((d ++ x :: u ++ r) ++ t).dropWhile isBlank with
  | nil => rw [hdw] at h; cases h
  | cons y more =>
    rw [hdw, List.head?_cons, Option.some.injEq] at h
    subst h
    simp only [List.append_assoc, List.cons_append] at hdw
    rcases hd.head_dropWhile (fun b hb => hm.head_not_blank b (by simpa using hb)) hdw with h | h
    · cases h
    · exact (hm.head_not_delim 33 (by simpa using h)).2.2.2 rfl

theorem GapBounds.upper {lo hi : List UInt8} (h : GapBounds lo (upperBound hi)) :
    hi = [42] ∨ SizeText hi := by
  by_cases hstar : hi = [42]
  · exact .inl hstar
  · exact .inr (h.2 hi (if_neg hstar)).1

/-- A bound of a gap holds no blank and is not empty. -/
theorem bound_solid {w : List UInt8} (h : w = [42] ∨ SizeText w) :
    w ≠ [] ∧ ∀ b ∈ w, isBlank b = false := by
  rcases h with rfl | h
  · exact ⟨List.cons_ne_nil _ _, fun b hb => by rw [List.mem_singleton.1 hb]; rfl⟩
  · exact ⟨h.1.1, Decimal.not_blank h.1⟩

theorem BraceForm.not_mem_close {inner : List UInt8} (h : BraceForm inner) : 125 ∉ inner := by
  have hblank : ∀ {w : List UInt8}, Blanks w → 125 ∉ w := fun hw hm => absurd (hw _ hm) (by decide)
  have hbound : ∀ {w : List UInt8}, (w = [42] ∨ SizeText w) → 125 ∉ w := by
    rintro w (rfl | hw) hm
    · simp at hm
    · exact absurd (hw.1.2 _ hm) (by decide)
  obtain ⟨ws₁, lo, ws₂, h₁, h₂, (⟨rfl, hlo⟩ | ⟨ws₃, hi, ws₄, h₃, h₄, rfl, hb⟩)⟩ := h
  · simp only [List.mem_append, not_or]
    exact ⟨⟨hblank h₁, hbound (.inr hlo)⟩, hblank h₂⟩
  · simp only [List.mem_append, List.mem_cons, not_or]
    exact ⟨⟨⟨⟨⟨hblank h₁, hbound (.inr hb.1)⟩, hblank h₂⟩, by decide, hblank h₃⟩,
      hbound hb.upper⟩, hblank h₄⟩

end Grammar

namespace Parser

open Grammar

/-! ## §2 The member loop, one member at a time -/

section Members

variable {start : Nat} {c : Cursor} {acc : List (UInt8 × UInt8)}

theorem members_close {t : List UInt8} (h : c.skipDelimiters.rest = 93 :: t) :
    members start c acc = .ok acc.reverse := by
  rw [members]
  split
  · simp_all
  · rename_i b t' heq
    have hb : b = 93 := (List.cons.inj (heq.symm.trans h)).1
    rw [if_pos hb]

theorem members_quoted {q : UInt8} {t bytes : List UInt8} {d : Cursor}
    {hd : d.rest.length < c.skipDelimiters.rest.length}
    (h : c.skipDelimiters.rest = q :: t) (hq : q = 39 ∨ q = 96)
    (hr : quoted c.skipDelimiters = .ok (bytes, ⟨d, hd⟩)) :
    members start c acc = members start d ((bytes.map fun x => (x, x)).reverse ++ acc) := by
  rw [members]
  split
  · simp_all
  · rename_i b t' heq
    have hb : b = q := (List.cons.inj (heq.symm.trans h)).1
    subst hb
    have h93 : b ≠ 93 := by rcases hq with rfl | rfl <;> decide
    rw [if_neg h93, if_pos hq, hr]

theorem members_range {b : UInt8} {t : List UInt8} (h : c.skipDelimiters.rest = b :: t)
    (h93 : b ≠ 93) (hq : ¬(b = 39 ∨ b = 96)) {lo hi : UInt8} {d e : Cursor}
    {hd : d.rest.length < c.skipDelimiters.rest.length}
    (hlo : hexByte c.skipDelimiters = .ok (lo, ⟨d, hd⟩)) {more : List UInt8}
    (h58 : d.skipBlanks.rest = 58 :: more) {he}
    (hhi : hexByte (skipWhile isBlank (d.skipBlanks.pos + 1) more) = .ok (hi, ⟨e, he⟩)) :
    members start c acc = members start e ((lo, hi) :: acc) := by
  rw [members]
  split
  · simp_all
  · rename_i b' t' heq
    have hb : b' = b := (List.cons.inj (heq.symm.trans h)).1
    subst hb
    rw [if_neg h93, if_neg hq, hlo]
    dsimp only
    split
    · rename_i more' heq2
      have hm : more' = more := (List.cons.inj (heq2.symm.trans h58)).2
      subst hm
      rw [hhi]
    · rename_i hne
      exact absurd h58 (hne _)

theorem members_byte {b : UInt8} {t : List UInt8} (h : c.skipDelimiters.rest = b :: t)
    (h93 : b ≠ 93) (hq : ¬(b = 39 ∨ b = 96)) {lo : UInt8} {d : Cursor}
    {hd : d.rest.length < c.skipDelimiters.rest.length}
    (hlo : hexByte c.skipDelimiters = .ok (lo, ⟨d, hd⟩))
    (h58 : ∀ more, d.skipBlanks.rest ≠ 58 :: more) :
    members start c acc = members start d.skipBlanks ((lo, lo) :: acc) := by
  rw [members]
  split
  · simp_all
  · rename_i b' t' heq
    have hb : b' = b := (List.cons.inj (heq.symm.trans h)).1
    subst hb
    rw [if_neg h93, if_neg hq, hlo]
    dsimp only
    split
    · rename_i more' heq2
      exact absurd heq2 (h58 _)
    · rfl

/-- The member loop reads one member and goes on with more ranges, from a cursor at most some
separators before it. -/
theorem members_step (start : Nat) (acc : List (UInt8 × UInt8)) {d m X : List UInt8} (hd : Delims d)
    (hm : Member m)
    (hX : ∀ more, X.dropWhile isBlank ≠ 58 :: more) {p : List UInt8} (hp : Delims p)
    (hc : p ++ c.rest = d ++ m ++ X) :
    ∃ p' c' acc', Delims p' ∧ p' ++ c'.rest = X ∧ acc.length < acc'.length ∧
      members start c acc = members start c' acc' := by
  have h1 : c.skipDelimiters.rest = m ++ X := by
    have := congrArg (List.dropWhile isDelim) hc
    rw [List.dropWhile_append_of_pos hp.all, List.append_assoc,
      List.dropWhile_append_of_pos hd.all] at this
    obtain ⟨x, t, hxt, -⟩ := hm.head
    rw [Cursor.skipDelimiters_rest, this]
    exact dropWhile_self fun b hb =>
      (hm.head_not_delim b (by rw [hxt] at hb ⊢; simpa using hb)).1
  cases hm with
  | byte hw =>
    obtain ⟨x, y, rfl, hx, -⟩ := id hw
    obtain ⟨lo, ⟨e, he⟩, hok, hrest⟩ := hexByte_complete hw h1
    refine ⟨X.takeWhile isBlank, e.skipBlanks, (lo, lo) :: acc,
      Blanks.delims fun _ hb => List.mem_takeWhile_imp hb, ?_, by simp,
      members_byte h1 (hx.ne (by decide)) hx.not_quote hok ?_⟩
    · rw [Cursor.skipBlanks_rest, hrest, List.takeWhile_append_dropWhile]
    · -- a lone byte: no `:` follows it, or the loop would read a range
      rw [Cursor.skipBlanks_rest, hrest]
      exact hX
  | @range lo' ws₁ ws₂ hi hlo h₁ h₂ hhi =>
    obtain ⟨x, y, rfl, hx, -⟩ := id hlo
    obtain ⟨lo, ⟨e, he⟩, hok, hrest⟩ :=
      hexByte_complete hlo (show c.skipDelimiters.rest = [x, y] ++ (ws₁ ++ 58 :: (ws₂ ++ hi ++ X))
        by rw [h1]; simp)
    have hhead : ∀ b, (hi ++ X).head? = some b → isBlank b = false := by
      obtain ⟨u, v, rfl, hu, -⟩ := hhi
      intro b hb
      obtain rfl : u = b := by simpa using hb
      exact hu.not_blank
    have h58 : e.skipBlanks.rest = 58 :: (ws₂ ++ hi ++ X) := by
      rw [Cursor.skipBlanks_rest, hrest, dropWhile_blanks_cons h₁ rfl]
    obtain ⟨hi', ⟨e', he'⟩, hok', hrest'⟩ := hexByte_complete hhi
      (c := skipWhile isBlank (e.skipBlanks.pos + 1) (ws₂ ++ hi ++ X))
      (by rw [skipWhile_rest, List.append_assoc, dropWhile_blanks h₂ hhead])
    exact ⟨[], e', (lo, hi') :: acc, blanks_nil.delims, hrest', by simp,
      members_range h1 (hx.ne (by decide)) hx.not_quote hok h58 hok'⟩
  | text hw =>
    obtain ⟨q, body, hq, hbody, rfl⟩ := hw
    obtain ⟨⟨e, he⟩, hok, hrest⟩ :=
      quoted_complete hbody (show c.skipDelimiters.rest = q :: (body ++ q :: X) by rw [h1]; simp)
    refine ⟨[], e, (body.map fun x => (x, x)).reverse ++ acc, blanks_nil.delims, hrest, ?_,
      members_quoted h1 hq hok⟩
    simpa using List.length_pos_of_ne_nil hbody.1

/-- On a run of members closed by `]`, the loop succeeds from a cursor at most some separators
before the run, gathering a range or more for each member. -/
theorem members_complete_run {r : List UInt8} (hr : MemberRun r) (t : List UInt8) :
    ∀ {p : List UInt8} {c : Cursor} (acc : List (UInt8 × UInt8)), Delims p →
      p ++ c.rest = r ++ 93 :: t →
      ∃ ranges, members start c acc = .ok ranges ∧ acc.length ≤ ranges.length := by
  induction hr with
  | close hd =>
    intro p c acc hp hc
    refine ⟨acc.reverse, members_close (t := t) ?_, by simp⟩
    have := congrArg (List.dropWhile isDelim) hc
    rw [List.dropWhile_append_of_pos hp.all,
      dropWhile_run hd.all (fun b hb => by obtain rfl : 93 = b := (by simpa using hb); decide)] at this
    rw [Cursor.skipDelimiters_rest, this]
  | member hd hm hr ih =>
    intro p c acc hp hc
    obtain ⟨p', c', acc', hp', hc', hlt, heq⟩ :=
      members_step start acc hd hm (hr.not_colon t) hp (by rw [hc]; simp)
    obtain ⟨ranges, hok, hle⟩ := ih acc' hp' hc'
    exact ⟨ranges, heq ▸ hok, by omega⟩

/-- On one or more members closed by `]`, the loop gathers at least one range. -/
theorem members_complete (start : Nat) {ms : List UInt8} (hms : Members ms) (t : List UInt8)
    {p : List UInt8} {c : Cursor} (hp : Delims p) (hc : p ++ c.rest = ms ++ 93 :: t) :
    ∃ ranges, members start c [] = .ok ranges ∧ ranges ≠ [] := by
  obtain ⟨d, m, r, hd, hm, hr, rfl⟩ := hms
  obtain ⟨p', c', acc', hp', hc', hlt, heq⟩ :=
    members_step start [] hd hm (hr.not_colon t) hp (by rw [hc]; simp)
  obtain ⟨ranges, hok, hle⟩ := members_complete_run hr t acc' hp' hc'
  exact ⟨ranges, heq ▸ hok, List.ne_nil_of_length_pos (by simp at hlt; omega)⟩

/-- What the member loop reads is a run of members and the closing `]`; with no member read,
it returns what it had gathered. -/
theorem members_sound {ranges : List (UInt8 × UInt8)} (h : members start c acc = .ok ranges) :
    ∃ r t, c.rest = r ++ 93 :: t ∧ (Members r ∨ (Delims r ∧ ranges = acc.reverse)) := by
  fun_induction members start c acc with
  | case1 => cases h
  | case2 c acc c1 _ body h93 =>
    obtain ⟨dp, hd, hsplit⟩ := c.delims_skipDelimiters
    exact ⟨dp, body, hsplit.trans (by rw [h93]), .inr ⟨hd, (Except.ok.inj h).symm⟩⟩
  | case3 => cases h
  | case4 c acc c1 _ q body hc1 hq93 hq bytes d hd hok _ ih =>
    obtain ⟨r, t, hr, hrun⟩ := ih h
    obtain ⟨w, hw, hquoted⟩ := quoted_sound_of_quote hc1 hq hok
    obtain ⟨dp, hdel, hsplit⟩ := c.delims_skipDelimiters
    refine ⟨dp ++ w ++ r, t, ?_,
      .inl (Members.of_member hdel (.text hquoted) (hrun.imp_right And.left))⟩
    rw [hsplit, hw, hr]
    simp
  | case5 => cases h
  | case6 => cases h
  | case7 c acc c1 _ b body hc1 h93 hq lo e he hlo d1 _ more h58 d2 _ hi e' he' hhi _ ih =>
    -- a range: a hex byte, blanks, `:`, blanks and a hex byte
    obtain ⟨r, t, hr, hrun⟩ := ih h
    obtain ⟨w, hw, hwlo⟩ := hexByte_sound hlo
    obtain ⟨w', hw', hwhi⟩ := hexByte_sound hhi
    obtain ⟨dp, hdel, hsplit⟩ := c.delims_skipDelimiters
    obtain ⟨ws₁, hb1, hs1⟩ := e.blanks_skipBlanks
    obtain ⟨ws₂, hb2, hs2⟩ := skipWhile_blanks (d1.pos + 1) more
    refine ⟨dp ++ (w ++ ws₁ ++ 58 :: ws₂ ++ w') ++ r, t, ?_,
      .inl (Members.of_member hdel (.range hwlo hb1 hb2 hwhi) (hrun.imp_right And.left))⟩
    rw [hsplit, hw, hs1, h58, hs2, hw', hr]
    simp
  | case8 c acc c1 _ b body hc1 h93 hq lo e he hlo d1 _ _ _ ih =>
    -- a lone hex byte: the blanks after it belong to the separators before the next member
    obtain ⟨r, t, hr, hrun⟩ := ih h
    obtain ⟨w, hw, hwlo⟩ := hexByte_sound hlo
    obtain ⟨dp, hdel, hsplit⟩ := c.delims_skipDelimiters
    obtain ⟨ws, hb, hs⟩ := e.blanks_skipBlanks
    refine ⟨dp ++ w ++ (ws ++ r), t, ?_, .inl (Members.of_member hdel (.byte hwlo) ?_)⟩
    · rw [hsplit, hw, hs, hr]
      simp
    · exact (MemberRun.delims_append hb.delims
        (hrun.elim Members.run fun h => .close h.1)).members_or_delims

end Members

/-! ## §3 Brackets -/

/-- The scan for the closing `]` stops at the first `]` after clean text. -/
theorem closeBracket_eq {s w t v : List UInt8} (hs : s = w ++ 93 :: t) (hw : Clean w)
    {start pos : Nat} {d : { d : Cursor // d.rest.length < s.length }}
    (h : closeBracket start none pos s = .ok (v, d)) : v = w ∧ d.1.rest = t := by
  subst hs
  obtain ⟨d', hd', hr⟩ := closeBracket_complete hw start pos t
  rw [hd'] at h
  have e := Except.ok.inj h
  exact ⟨(congrArg Prod.fst e).symm, (congrArg (fun x => x.2.1.rest) e).symm.trans hr⟩

/-- Before its members, a set skips blanks and reads an optional `!`. -/
theorem setStart_split (pos : Nat) (body : List UInt8) :
    ∃ ws neg c2, Blanks ws ∧ (neg = [] ∨ neg = [33]) ∧ body = ws ++ neg ++ c2.rest ∧
      (if ((skipWhile isBlank pos body).rest.head? == some 33) = true then
        ({ pos := (skipWhile isBlank pos body).pos + 1,
           rest := (skipWhile isBlank pos body).rest.drop 1 } : Cursor)
      else skipWhile isBlank pos body) = c2 := by
  obtain ⟨ws, hws, hs⟩ := skipWhile_blanks pos body
  generalize skipWhile isBlank pos body = c1 at hs ⊢
  by_cases hn : (c1.rest.head? == some 33) = true
  · rw [if_pos hn]
    refine ⟨ws, [33], _, hws, .inr rfl, ?_, rfl⟩
    have hcons : c1.rest = 33 :: c1.rest.drop 1 := by
      cases h1 : c1.rest with
      | nil => rw [h1] at hn; cases hn
      | cons y more => rw [h1] at hn; simp at hn; rw [hn]; rfl
    rw [hs, hcons]
    simp
  · rw [if_neg hn]
    exact ⟨ws, [], c1, hws, .inl rfl, by simpa using hs, rfl⟩

/-- On a set's text, the blanks and the optional `!` are skipped, and the member loop starts at
most some blanks before the members. -/
theorem setStart_members (pos : Nat) {ws neg ms : List UInt8} (hws : Blanks ws)
    (hneg : neg = [] ∨ neg = [33]) (hms : Members ms) (t : List UInt8) :
    ∃ p c2, Delims p ∧ p ++ c2.rest = ms ++ t ∧
      (if ((skipWhile isBlank pos (ws ++ neg ++ ms ++ t)).rest.head? == some 33) = true then
        ({ pos := (skipWhile isBlank pos (ws ++ neg ++ ms ++ t)).pos + 1,
           rest := (skipWhile isBlank pos (ws ++ neg ++ ms ++ t)).rest.drop 1 } : Cursor)
      else skipWhile isBlank pos (ws ++ neg ++ ms ++ t)) = c2 := by
  have h1 : (skipWhile isBlank pos (ws ++ neg ++ ms ++ t)).rest = (neg ++ ms ++ t).dropWhile isBlank := by
    rw [skipWhile_rest, List.append_assoc, List.append_assoc, List.dropWhile_append_of_pos hws,
      List.append_assoc]
  generalize skipWhile isBlank pos (ws ++ neg ++ ms ++ t) = c1 at h1 ⊢
  rcases hneg with rfl | rfl
  · have hn : ¬((c1.rest.head? == some 33) = true) := by
      rw [h1]
      simpa using hms.head_ne_bang t
    rw [if_neg hn]
    refine ⟨(ms ++ t).takeWhile isBlank, c1, Blanks.delims fun _ hb => List.mem_takeWhile_imp hb,
      ?_, rfl⟩
    rw [h1, List.nil_append, List.takeWhile_append_dropWhile]
  · have h1' : c1.rest = 33 :: (ms ++ t) := by
      rw [h1]
      exact List.dropWhile_cons_of_neg (by decide)
    rw [if_pos (by rw [h1']; rfl)]
    exact ⟨[], _, blanks_nil.delims, by rw [h1']; rfl, rfl⟩

/-- What a bracket's text says it holds. -/
def Bracket.Form : Bracket → List UInt8 → Prop
  | .gapText lo hi, content => GapForm content lo hi
  | .set _, content => SetForm content ∧ ∀ lo hi, ¬GapForm content lo hi

theorem bracket_sound {c : Cursor} {br : Bracket} {d : Past c} (h : bracket c = .ok (br, d)) :
    ∃ b content, c.rest = b :: (content ++ 93 :: d.1.rest) ∧ br.Form content := by
  unfold bracket at h
  split at h
  · cases h
  · rename_i b body hcr
    split at h
    · cases h
    · rename_i content after ha hclose
      obtain ⟨hbody, hclean⟩ := closeBracket_sound hclose
      split at h
      · rename_i lo hi hg
        have e := Except.ok.inj h
        have hbr : Bracket.gapText lo hi = br := congrArg Prod.fst e
        have hd : after = d.1 := congrArg (fun x => x.2.1) e
        subst hbr hd
        exact ⟨b, content, hcr.trans (congrArg _ hbody), gapBounds?_eq_some_iff.1 hg⟩
      · rename_i hnone
        obtain ⟨ws, neg, c2, hws, hneg, hsplit, hc2⟩ := setStart_split (c.pos + 1) body
        dsimp only at h
        rw [hc2] at h
        split at h
        · cases h
        · cases h
        · rename_i ranges hne hmem
          have e := Except.ok.inj h
          have hd : after = d.1 := congrArg (fun x => x.2.1) e
          have hbr : Bracket.set _ = br := congrArg Prod.fst e
          subst hd hbr
          obtain ⟨r, t, hr, hrun⟩ := members_sound hmem
          have hms : Members r := hrun.resolve_right fun h => hne h.2
          have hw : Clean (ws ++ neg ++ r) := (hws.clean.append (negation_clean hneg)).append hms.clean
          obtain ⟨rfl, -⟩ := closeBracket_eq (t := t) (by rw [hsplit, hr]; simp) hw hclose
          refine ⟨b, ws ++ neg ++ r, hcr.trans (congrArg _ hbody), ?_⟩
          exact ⟨⟨ws, neg, r, hws, hneg, hms, rfl⟩, gapBounds?_eq_none_iff.1 hnone⟩
/-- Read from a `[`, a bracket read as a byte set is a set bracket of the grammar. -/
theorem bracket_set_sound {c : Cursor} {b : UInt8} {t : List UInt8} {cls : ByteSet} {d : Past c}
    (hc : c.rest = b :: t) (hb : b = 91) (h : bracket c = .ok (.set cls, d)) :
    ∃ w, c.rest = w ++ d.1.rest ∧ SetBracket w := by
  obtain ⟨b', content, hs, hform, hng⟩ := bracket_sound h
  obtain rfl : b' = 91 := (List.cons.inj (hs.symm.trans hc)).1.trans hb
  exact ⟨91 :: content ++ [93], hs.trans (by simp), content, rfl, hform, hng⟩

theorem bracket_gap {c : Cursor} {b : UInt8} {content rest lo hi : List UInt8}
    (hc : c.rest = b :: (content ++ 93 :: rest)) (hg : GapForm content lo hi) :
    ∃ d, bracket c = .ok (.gapText lo hi, d) ∧ d.1.rest = rest := by
  obtain ⟨⟨after, ha⟩, hclose, hrest⟩ := closeBracket_complete hg.clean c.pos (c.pos + 1) rest
  unfold bracket
  split
  · simp_all
  · rename_i b' body hcr
    obtain rfl : body = content ++ 93 :: rest := (List.cons.inj (hcr.symm.trans hc)).2
    rw [hclose]
    dsimp only
    rw [gapBounds?_eq_some_iff.2 hg]
    exact ⟨_, rfl, hrest⟩

theorem bracket_set {c : Cursor} {b : UInt8} {content rest : List UInt8}
    (hc : c.rest = b :: (content ++ 93 :: rest)) (hs : SetForm content)
    (hng : ∀ lo hi, ¬GapForm content lo hi) :
    ∃ cls d, bracket c = .ok (.set cls, d) ∧ d.1.rest = rest := by
  obtain ⟨ws, neg, ms, hws, hneg, hms, rfl⟩ := hs
  obtain ⟨⟨after, ha⟩, hclose, hrest⟩ := closeBracket_complete
    ((hws.clean.append (negation_clean hneg)).append hms.clean) c.pos (c.pos + 1) rest
  obtain ⟨p, c2, hp, hc2, hstart⟩ := setStart_members (c.pos + 1) hws hneg hms (93 :: rest)
  obtain ⟨ranges, hok, hne⟩ := members_complete c.pos hms rest hp hc2
  unfold bracket
  split
  · simp_all
  · rename_i b' body hcr
    obtain rfl : body = ws ++ neg ++ ms ++ 93 :: rest := (List.cons.inj (hcr.symm.trans hc)).2
    rw [hclose]
    dsimp only
    rw [gapBounds?_eq_none_iff.2 hng]
    dsimp only
    rw [hstart, hok]
    obtain ⟨r0, rs, rfl⟩ := List.exists_cons_of_ne_nil hne
    exact ⟨_, _, rfl, hrest⟩
/-! ## §4 Gaps -/

/-- Valid gap bounds, as the readers test them: the least bound reads as a size, and the
greatest is `*` or reads as a size not below it. -/
theorem gapBounds_iff {lo hi : List UInt8} :
    GapBounds lo (upperBound hi) ↔ ∃ m, Size.ofDigits? lo = some m ∧
      (hi = [42] ∨ ∃ n, Size.ofDigits? hi = some n ∧ m ≤ n) := by
  unfold GapBounds upperBound
  constructor
  · rintro ⟨hlo, hhi⟩
    refine ⟨_, ofDigits?_eq_some_iff.2 ⟨hlo, rfl⟩, ?_⟩
    by_cases hstar : hi = [42]
    · exact .inl hstar
    · rw [if_neg hstar] at hhi
      obtain ⟨hs, hle⟩ := hhi hi rfl
      exact .inr ⟨_, ofDigits?_eq_some_iff.2 ⟨hs, rfl⟩, hle⟩
  · rintro ⟨m, hm, hhi⟩
    obtain ⟨hlo, rfl⟩ := ofDigits?_eq_some_iff.1 hm
    refine ⟨hlo, fun h hh => ?_⟩
    rcases hhi with rfl | ⟨n, hn, hle⟩
    · simp at hh
    · split_ifs at hh with hstar
      obtain rfl := Option.some.inj hh
      obtain ⟨hs, rfl⟩ := ofDigits?_eq_some_iff.1 hn
      exact ⟨hs, hle⟩

/-- A numeric gap is made from its bounds exactly when they are valid. -/
theorem gapOfText_ok_iff {start : Nat} {lo hi : List UInt8} :
    (∃ f, gapOfText start lo hi = .ok f) ↔ GapBounds lo (upperBound hi) := by
  rw [gapBounds_iff]
  unfold gapOfText
  cases hlo : Size.ofDigits? lo with
  | none => simp [fail]
  | some m =>
    by_cases hstar : hi = [42]
    · simp [hstar]
    · cases hhi : Size.ofDigits? hi with
      | none => simp [hstar, fail]
      | some n =>
        by_cases hlt : n < m
        · simp [hstar, hlt, fail]
        · simpa [hstar, hlt] using Nat.le_of_not_lt hlt

theorem splitFirst_of_lt {sep : UInt8} {s : List UInt8}
    (h : (s.takeWhile (· != sep)).length < s.length) :
    splitFirst sep s = some (s.takeWhile (· != sep), s.drop ((s.takeWhile (· != sep)).length + 1)) := by
  unfold splitFirst
  rw [if_pos h]

theorem trimBlanks_around {ws₁ lo mid hi ws₂ : List UInt8} (h₁ : Blanks ws₁) (h₂ : Blanks ws₂)
    (hlo : lo ≠ [] ∧ ∀ b ∈ lo, isBlank b = false) (hhi : hi ≠ [] ∧ ∀ b ∈ hi, isBlank b = false) :
    trimBlanks (ws₁ ++ (lo ++ mid ++ hi) ++ ws₂) = lo ++ mid ++ hi := by
  refine trimBlanks_eq h₁ h₂ (fun b hb => hlo.2 b ?_) (fun b hb => hhi.2 b ?_)
  · obtain ⟨x, t, rfl⟩ := List.exists_cons_of_ne_nil hlo.1
    simp only [List.cons_append, List.head?_cons, Option.some.injEq] at hb
    exact hb ▸ List.mem_cons_self
  · obtain ⟨x, t, hx⟩ := List.exists_cons_of_ne_nil (List.reverse_ne_nil_iff.2 hhi.1)
    rw [List.reverse_append, hx, List.cons_append, List.head?_cons, Option.some.injEq] at hb
    exact List.mem_reverse.1 (hx ▸ hb ▸ List.mem_cons_self)

theorem braceGap_sound {c : Cursor} {f : Fragment} {d : Past c} (h : braceGap c = .ok (f, d)) :
    ∃ b inner, c.rest = b :: (inner ++ 125 :: d.1.rest) ∧ BraceForm inner := by
  unfold braceGap at h
  split at h
  · cases h
  · rename_i b body hcr
    dsimp only at h
    split at h
    · rename_i hlt
      obtain ⟨hbody, -⟩ := splitFirst_eq_some_iff.1 (splitFirst_of_lt hlt)
      set inner := body.takeWhile (· != 125) with hinner
      set after : Past c := ⟨⟨c.pos + inner.length + 2, body.drop (inner.length + 1)⟩,
        by rw [hcr]; simp only [List.length_cons, List.length_drop]; omega⟩ with hafter
      -- every success ends after the closing brace
      have hshape : ∀ {g : Fragment},
          (Except.ok (g, after) : Except Fault (Fragment × Past c)) = .ok (f, d) →
          c.rest = b :: (inner ++ 125 :: d.1.rest) := by
        intro g he
        have hd : after.1.rest = d.1.rest := congrArg (fun x => x.2.1.rest) (Except.ok.inj he)
        rw [← hd]
        exact hcr.trans (congrArg (b :: ·) hbody)
      obtain ⟨l, r, hl, hr, htrim⟩ := exists_trimBlanks inner
      split at h
      · cases h
      · rename_i m hm
        cases hs : splitFirst 45 (trimBlanks inner) with
        | none =>
          rw [hs] at hm h
          dsimp only at hm h
          rw [if_neg (Nat.lt_irrefl m)] at h
          exact ⟨b, inner, hshape h, l, trimBlanks inner, r, hl, hr,
            .inl ⟨htrim, (ofDigits?_eq_some_iff.1 hm).1⟩⟩
        | some p =>
          obtain ⟨lo, hi⟩ := p
          rw [hs] at hm h
          dsimp only at hm h
          have hform : GapBounds (trimBlanks lo) (upperBound (trimBlanks hi)) → BraceForm inner := by
            obtain ⟨hsplit, -⟩ := splitFirst_eq_some_iff.1 hs
            obtain ⟨l₁, r₁, hl₁, hr₁, hlo⟩ := exists_trimBlanks lo
            obtain ⟨l₂, r₂, hl₂, hr₂, hhi⟩ := exists_trimBlanks hi
            generalize trimBlanks lo = lo' at hlo ⊢
            generalize trimBlanks hi = hi' at hhi ⊢
            refine fun hb => ⟨l ++ l₁, lo', r₁, hl.append hl₁, hr₁,
              .inr ⟨l₂, hi', r₂ ++ r, hl₂, hr₂.append hr, ?_, hb⟩⟩
            rw [htrim, hsplit, hlo, hhi]
            simp
          by_cases hstar : trimBlanks hi = [42]
          · rw [if_pos hstar] at h
            exact ⟨b, inner, hshape h, hform (gapBounds_iff.2 ⟨m, hm, .inl hstar⟩)⟩
          · rw [if_neg hstar] at h
            cases hn : Size.ofDigits? (trimBlanks hi) with
            | none =>
              rw [hn] at h
              cases h
            | some n =>
              rw [hn] at h
              dsimp only at h
              split_ifs at h with hlt
              · cases h
              exact ⟨b, inner, hshape h,
                hform (gapBounds_iff.2 ⟨m, hm, .inr ⟨n, hn, Nat.le_of_not_lt hlt⟩⟩)⟩
    · cases h
theorem braceGap_complete {c : Cursor} {b : UInt8} {inner rest : List UInt8}
    (hc : c.rest = b :: (inner ++ 125 :: rest)) (h : BraceForm inner) :
    ∃ f d, braceGap c = .ok (f, d) ∧ d.1.rest = rest := by
  have hs := (splitFirst_eq_some_iff (s := inner ++ 125 :: rest)).2 ⟨rfl, h.not_mem_close⟩
  unfold splitFirst at hs
  dsimp only at hs
  split_ifs at hs with hlt
  obtain ⟨htake, hdrop⟩ := Prod.mk.inj (Option.some.inj hs)
  unfold braceGap
  split
  · simp_all
  · rename_i b' body hcr
    obtain rfl : body = inner ++ 125 :: rest := (List.cons.inj (hcr.symm.trans hc)).2
    dsimp only
    rw [dif_pos hlt,
      show trimBlanks (List.takeWhile (fun x => x != 125) (inner ++ 125 :: rest)) = trimBlanks inner
        by rw [htake]]
    obtain ⟨ws₁, lo, ws₂, h₁, h₂, (⟨rfl, hlo⟩ | ⟨ws₃, hi, ws₄, h₃, h₄, rfl, hb⟩)⟩ := h
    · -- one bound
      have htrim : trimBlanks (ws₁ ++ lo ++ ws₂) = lo := trimBlanks_of_forall h₁ h₂ (Decimal.not_blank hlo.1)
      have h45 : splitFirst 45 lo = none :=
        splitFirst_eq_none_iff.2 fun hm => absurd (hlo.1.2 _ hm) (by decide)
      rw [htrim, h45]
      dsimp only
      rw [ofDigits?_eq_some_iff.2 ⟨hlo, rfl⟩]
      dsimp only
      rw [if_neg (Nat.lt_irrefl _)]
      exact ⟨_, _, rfl, hdrop⟩
    · -- two bounds around `-`
      obtain ⟨m, hm, hhi⟩ := gapBounds_iff.1 hb
      have hlo := bound_solid (.inr hb.1)
      have hhi' := bound_solid hb.upper
      have htrim : trimBlanks (ws₁ ++ lo ++ ws₂ ++ 45 :: ws₃ ++ hi ++ ws₄) = lo ++ (ws₂ ++ 45 :: ws₃) ++ hi := by
        rw [← trimBlanks_around h₁ h₄ hlo hhi']
        simp
      have h45 : splitFirst 45 (lo ++ (ws₂ ++ 45 :: ws₃) ++ hi) = some (lo ++ ws₂, ws₃ ++ hi) := by
        refine splitFirst_eq_some_iff.2 ⟨by simp, ?_⟩
        simp only [List.mem_append, not_or]
        exact ⟨fun hm => absurd (hb.1.1.2 _ hm) (by decide), fun hm => absurd (h₂ _ hm) (by decide)⟩
      have hlo' : trimBlanks (lo ++ ws₂) = lo := by simpa using trimBlanks_of_forall blanks_nil h₂ hlo.2
      have hhi'' : trimBlanks (ws₃ ++ hi) = hi := by simpa using trimBlanks_of_forall h₃ blanks_nil hhi'.2
      rw [htrim, h45]
      dsimp only
      rw [hlo', hhi'', hm]
      dsimp only
      by_cases hstar : hi = [42]
      · rw [if_pos hstar]
        exact ⟨_, _, rfl, hdrop⟩
      · obtain ⟨n, hn, hle⟩ := hhi.resolve_left hstar
        rw [if_neg hstar, hn]
        dsimp only
        rw [if_neg (Nat.not_lt.2 hle)]
        exact ⟨_, _, rfl, hdrop⟩
end Parser

end ContainerProbe.Pattern
