import Mathlib
import ContainerProbe.Pattern.Parser

/-!
# The grammar of canonical expressions

The reader of `ContainerProbe.Pattern.Parser` scans the bytes of an expression once, from left
to right, and stops at the first problem. This module says apart from it which byte strings are
expressions, by a grammar built from concatenation:

* an expression is blanks, an optional `^`, one or more fragments each after optional blanks,
  and blanks, optionally with a `$` among them at the very end;
* a fragment is a hex byte (two hex digits), quoted text (`'..'` of ASCII bytes or `` `..` ``
  of any bytes, never empty), `??`, `*`, a brace gap `{n}`, `{n-m}` or `{n-*}`, a bracket (a
  gap or a byte set), or alternatives `( .. | .. )` of runs of hex bytes, quoted text, byte
  sets and `??`;
* gap bounds are decimal, fit a size, and the least is not above the greatest.

A bracket is read by its text. Split at its first `:`, a text whose two sides are, up to
blanks, decimal digits and decimal digits or `*`, not both exactly two digits long, is a gap
and only a gap; any other bracket is a byte set: an optional `!` and one or more members (hex
bytes, ranges `lo : hi` of hex bytes, quoted text) separated by blanks or commas. So
`[1000:00]` is a gap whose least bound exceeds its greatest, and never the set of `10` and
`00:00` that its bytes would also spell.

The second half of the module proves the lexical readers right against their words: blanks,
hex bytes, quoted text, decimal sizes, the scan for a bracket's closing `]`, and the split of a
bracket's text into gap bounds. Each reader gets a completeness lemma (on a word of its grammar
followed by anything, it succeeds and leaves exactly what follows) and a soundness lemma (what
it consumed is a word of its grammar).
-/

namespace ContainerProbe.Pattern

namespace Grammar

open ContainerProbe.Pattern.Parser (isBlank)

/-! ## §1 Words -/

/-- A run of blanks: space, tab, line feed, form feed, carriage return. -/
def Blanks (w : List UInt8) : Prop := ∀ b ∈ w, isBlank b = true

/-- A run of separators between the members of a byte set: blanks and commas. -/
def Delims (w : List UInt8) : Prop := ∀ b ∈ w, isBlank b = true ∨ b = 44

/-- A hexadecimal digit, in either case. -/
def IsHexDigit (b : UInt8) : Prop :=
  48 ≤ b.toNat ∧ b.toNat ≤ 57 ∨ 97 ≤ b.toNat ∧ b.toNat ≤ 102 ∨ 65 ≤ b.toNat ∧ b.toNat ≤ 70

instance (b : UInt8) : Decidable (IsHexDigit b) :=
  inferInstanceAs (Decidable (48 ≤ b.toNat ∧ b.toNat ≤ 57 ∨ 97 ≤ b.toNat ∧ b.toNat ≤ 102 ∨
    65 ≤ b.toNat ∧ b.toNat ≤ 70))

/-- A decimal digit. -/
def IsDigit (b : UInt8) : Prop := 48 ≤ b.toNat ∧ b.toNat ≤ 57

instance (b : UInt8) : Decidable (IsDigit b) :=
  inferInstanceAs (Decidable (48 ≤ b.toNat ∧ b.toNat ≤ 57))

/-- A byte written as two hex digits. -/
def HexByte (w : List UInt8) : Prop := ∃ h l, w = [h, l] ∧ IsHexDigit h ∧ IsHexDigit l

/-- The body of a quotation delimited by `q`: not empty, without `q`, and only ASCII bytes
inside `'..'`. -/
def QuoteBody (q : UInt8) (body : List UInt8) : Prop :=
  body ≠ [] ∧ q ∉ body ∧ (q = 39 → ∀ b ∈ body, b.toNat < 128)

/-- Quoted text: `'` or `` ` ``, a quotation body, and the same delimiter again. -/
def Quoted (w : List UInt8) : Prop :=
  ∃ q body, (q = 39 ∨ q = 96) ∧ QuoteBody q body ∧ w = q :: body ++ [q]

/-- A non-empty run of decimal digits. -/
def Decimal (w : List UInt8) : Prop := w ≠ [] ∧ ∀ b ∈ w, IsDigit b

/-- The value of a run of decimal digits. -/
def decimalValue (w : List UInt8) : Nat := w.foldl (fun n b => n * 10 + (b.toNat - 48)) 0

/-- Decimal digits whose value is a size. -/
def SizeText (w : List UInt8) : Prop := Decimal w ∧ decimalValue w ≤ Size.max

/-- The greatest bound a text gives: `*` gives none. -/
def upperBound (hi : List UInt8) : Option (List UInt8) := if hi = [42] then none else some hi

/-- Valid gap bounds: a least size, and a greatest size not below it, if there is one. -/
def GapBounds (lo : List UInt8) (hi : Option (List UInt8)) : Prop :=
  SizeText lo ∧ ∀ h, hi = some h → SizeText h ∧ decimalValue lo ≤ decimalValue h

/-! ## §2 Brackets and braces -/

/-- Bracket text of the numeric gap form with bounds `lo` and `hi`: decimal digits, `:`, and
decimal digits or `*`, blanks around each bound, and not both bounds of exactly two digits. -/
def GapForm (content lo hi : List UInt8) : Prop :=
  ∃ ws₁ ws₂ ws₃ ws₄, Blanks ws₁ ∧ Blanks ws₂ ∧ Blanks ws₃ ∧ Blanks ws₄ ∧
    content = ws₁ ++ lo ++ ws₂ ++ 58 :: ws₃ ++ hi ++ ws₄ ∧
    Decimal lo ∧ (Decimal hi ∨ hi = [42]) ∧ ¬(lo.length = 2 ∧ hi.length = 2)

/-- A member of a byte set: a hex byte, two hex bytes around `:` (blanks allowed around it),
or quoted text. -/
inductive Member : List UInt8 → Prop
  | byte {w : List UInt8} : HexByte w → Member w
  | range {lo ws₁ ws₂ hi : List UInt8} : HexByte lo → Blanks ws₁ → Blanks ws₂ → HexByte hi →
      Member (lo ++ ws₁ ++ 58 :: ws₂ ++ hi)
  | text {w : List UInt8} : Quoted w → Member w

/-- Members, each after a run of separators, and the separators before the closing `]`. -/
inductive MemberRun : List UInt8 → Prop
  | close {d : List UInt8} : Delims d → MemberRun d
  | member {d m rest : List UInt8} : Delims d → Member m → MemberRun rest →
      MemberRun (d ++ m ++ rest)

/-- One or more members, separated by blanks or commas. -/
def Members (ms : List UInt8) : Prop :=
  ∃ d m rest, Delims d ∧ Member m ∧ MemberRun rest ∧ ms = d ++ m ++ rest

/-- Bracket text of a byte set: blanks, an optional `!`, and members. -/
def SetForm (content : List UInt8) : Prop :=
  ∃ ws neg ms, Blanks ws ∧ (neg = [] ∨ neg = [33]) ∧ Members ms ∧ content = ws ++ neg ++ ms

/-- A bracket holding a gap with valid bounds. -/
def GapBracket (w : List UInt8) : Prop :=
  ∃ content lo hi, w = 91 :: content ++ [93] ∧ GapForm content lo hi ∧
    GapBounds lo (upperBound hi)

/-- A bracket holding a byte set: its text has the set form and not the gap form. -/
def SetBracket (w : List UInt8) : Prop :=
  ∃ content, w = 91 :: content ++ [93] ∧ SetForm content ∧ ∀ lo hi, ¬GapForm content lo hi

/-- Brace text: one size, or two bounds around `-` of which the second may be `*`, with
blanks around each. -/
def BraceForm (inner : List UInt8) : Prop :=
  ∃ ws₁ lo ws₂, Blanks ws₁ ∧ Blanks ws₂ ∧
    ((inner = ws₁ ++ lo ++ ws₂ ∧ SizeText lo) ∨
      ∃ ws₃ hi ws₄, Blanks ws₃ ∧ Blanks ws₄ ∧ inner = ws₁ ++ lo ++ ws₂ ++ 45 :: ws₃ ++ hi ++ ws₄ ∧
        GapBounds lo (upperBound hi))

/-- A brace gap. -/
def Brace (w : List UInt8) : Prop := ∃ inner, w = 123 :: inner ++ [125] ∧ BraceForm inner

/-! ## §3 Fragments and expressions -/

/-- An element of a run inside alternatives. -/
inductive PieceText : List UInt8 → Prop
  | hex {w : List UInt8} : HexByte w → PieceText w
  | quoted {w : List UInt8} : Quoted w → PieceText w
  | set {w : List UInt8} : SetBracket w → PieceText w
  | any : PieceText [63, 63]

/-- One alternative: one or more pieces, each after optional blanks. -/
inductive Branch : List UInt8 → Prop
  | one {ws p : List UInt8} : Blanks ws → PieceText p → Branch (ws ++ p)
  | cons {ws p rest : List UInt8} : Blanks ws → PieceText p → Branch rest →
      Branch (ws ++ p ++ rest)

/-- The alternatives between `(` and `)`: branches separated by `|`, blanks allowed before it
and before the closing `)`. -/
inductive Branches : List UInt8 → Prop
  | last {b ws : List UInt8} : Branch b → Blanks ws → Branches (b ++ ws)
  | cons {b ws rest : List UInt8} : Branch b → Blanks ws → Branches rest →
      Branches (b ++ ws ++ 124 :: rest)

/-- A fragment of an expression. -/
inductive FragmentText : List UInt8 → Prop
  | hex {w : List UInt8} : HexByte w → FragmentText w
  | quoted {w : List UInt8} : Quoted w → FragmentText w
  | set {w : List UInt8} : SetBracket w → FragmentText w
  | gap {w : List UInt8} : GapBracket w → FragmentText w
  | brace {w : List UInt8} : Brace w → FragmentText w
  | star : FragmentText [42]
  | any : FragmentText [63, 63]
  | alternatives {bs : List UInt8} : Branches bs → FragmentText (40 :: bs ++ [41])

/-- One or more fragments, each after optional blanks. -/
inductive Body : List UInt8 → Prop
  | one {ws f : List UInt8} : Blanks ws → FragmentText f → Body (ws ++ f)
  | cons {ws f rest : List UInt8} : Blanks ws → FragmentText f → Body rest →
      Body (ws ++ f ++ rest)

/-- What follows the fragments: blanks, or a `$` with blanks around it; the flag says which. -/
inductive Tail : Bool → List UInt8 → Prop
  | blanks {ws : List UInt8} : Blanks ws → Tail false ws
  | dollar {ws ws' : List UInt8} : Blanks ws → Blanks ws' → Tail true (ws ++ 36 :: ws')

/-- A canonical expression with its anchor: at the start when it begins with `^`, at the end
when it ends with `$`, both, or neither. -/
def Expression (s : List UInt8) (anchor : Anchor) : Prop :=
  ∃ (ws body tail : List UInt8) (caret dollar : Bool), Blanks ws ∧ Body body ∧ Tail dollar tail ∧
    s = ws ++ (if caret then [94] else []) ++ body ++ tail ∧
    anchor = (if caret then Anchor.atStart else .floating).combine
      (if dollar then .atEnd else .floating)

end Grammar

namespace Parser

open Grammar

/-! ## §4 Bytes -/

theorem isBlank_iff {b : UInt8} :
    isBlank b = true ↔ b.toNat = 32 ∨ b.toNat = 9 ∨ b.toNat = 10 ∨ b.toNat = 12 ∨ b.toNat = 13 := by
  simp [isBlank, ← UInt8.toNat_inj, or_assoc]

theorem hexValue?_isSome_iff {b : UInt8} : (hexValue? b).isSome ↔ IsHexDigit b := by
  unfold hexValue? IsHexDigit
  simp only [UInt8.le_iff_toNat_le, UInt8.reduceToNat]
  split_ifs <;> simp_all

end Parser

namespace Grammar

open ContainerProbe.Pattern.Parser

/-! ## §5 Facts about words -/

theorem IsHexDigit.not_blank {b : UInt8} (h : IsHexDigit b) : isBlank b = false := by
  rw [← Bool.not_eq_true, isBlank_iff]
  unfold IsHexDigit at h
  omega

theorem IsHexDigit.ne {b k : UInt8} (h : IsHexDigit b) (hk : ¬IsHexDigit k) : b ≠ k :=
  fun e => hk (e ▸ h)

theorem IsDigit.isHexDigit {b : UInt8} (h : IsDigit b) : IsHexDigit b := .inl h

theorem Blanks.append {w w' : List UInt8} (h : Blanks w) (h' : Blanks w') : Blanks (w ++ w') := by
  intro b hb
  rcases List.mem_append.1 hb with hb | hb
  · exact h b hb
  · exact h' b hb

theorem Blanks.delims {w : List UInt8} (h : Blanks w) : Delims w := fun b hb => .inl (h b hb)

theorem blanks_nil : Blanks [] := fun _ hb => nomatch hb

theorem Decimal.not_blank {w : List UInt8} (h : Decimal w) : ∀ b ∈ w, isBlank b = false := by
  intro b hb
  exact IsHexDigit.not_blank (IsDigit.isHexDigit (h.2 b hb))

/-- Text that the scan for a bracket's closing `]` passes over: no `[` or `]` outside quoted
text, and every quotation closed. -/
inductive Clean : List UInt8 → Prop
  | nil : Clean []
  | plain {b : UInt8} {w : List UInt8} : b ≠ 39 → b ≠ 96 → b ≠ 91 → b ≠ 93 → Clean w →
      Clean (b :: w)
  | quote {q : UInt8} {body w : List UInt8} : (q = 39 ∨ q = 96) → q ∉ body → Clean w →
      Clean (q :: body ++ q :: w)

theorem Clean.append {w w' : List UInt8} (h : Clean w) (h' : Clean w') : Clean (w ++ w') := by
  induction h with
  | nil => exact h'
  | plain h1 h2 h3 h4 _ ih => exact .plain h1 h2 h3 h4 ih
  | quote hq hb _ ih =>
    have h := Clean.quote hq hb ih
    simp only [List.cons_append, List.append_assoc] at h ⊢
    exact h

theorem Clean.of_forall {w : List UInt8} (h : ∀ b ∈ w, b ≠ 39 ∧ b ≠ 96 ∧ b ≠ 91 ∧ b ≠ 93) :
    Clean w := by
  induction w with
  | nil => exact .nil
  | cons b w ih =>
    obtain ⟨h1, h2, h3, h4⟩ := h b List.mem_cons_self
    exact .plain h1 h2 h3 h4 (ih fun x hx => h x (List.mem_cons_of_mem _ hx))

theorem Decimal.clean {w : List UInt8} (h : Decimal w) : Clean w :=
  Clean.of_forall fun b hb => by
    have := h.2 b hb
    unfold IsDigit at this
    refine ⟨?_, ?_, ?_, ?_⟩ <;> (rintro rfl; simp at this)

theorem Blanks.clean {w : List UInt8} (h : Blanks w) : Clean w :=
  Clean.of_forall fun b hb => by
    have := isBlank_iff.1 (h b hb)
    refine ⟨?_, ?_, ?_, ?_⟩ <;> (rintro rfl; simp at this)

end Grammar

namespace Parser

open Grammar

/-! ## §6 Skipping runs -/

theorem skipWhile_rest (keep : UInt8 → Bool) (pos : Nat) (s : List UInt8) :
    (skipWhile keep pos s).rest = s.dropWhile keep := by
  induction s generalizing pos with
  | nil => rfl
  | cons b bs ih =>
    unfold skipWhile
    split
    · rename_i hb
      rw [ih, List.dropWhile_cons_of_pos hb]
    · rename_i hb
      rw [List.dropWhile_cons_of_neg hb]

theorem Cursor.skipBlanks_rest (c : Cursor) : c.skipBlanks.rest = c.rest.dropWhile isBlank :=
  skipWhile_rest _ _ _

/-- The test the member loop skips separators with. -/
abbrev isDelim (b : UInt8) : Bool := isBlank b || b == 44

theorem Cursor.skipDelimiters_rest (c : Cursor) :
    c.skipDelimiters.rest = c.rest.dropWhile isDelim :=
  skipWhile_rest _ _ _

/-- A cursor's bytes are the blanks it skips and the bytes after them. -/
theorem Cursor.blanks_skipBlanks (c : Cursor) : ∃ ws, Blanks ws ∧ c.rest = ws ++ c.skipBlanks.rest :=
  ⟨_, fun _ hb => List.mem_takeWhile_imp hb,
    by rw [Cursor.skipBlanks_rest, List.takeWhile_append_dropWhile]⟩

theorem skipWhile_blanks (pos : Nat) (s : List UInt8) :
    ∃ ws, Blanks ws ∧ s = ws ++ (skipWhile isBlank pos s).rest :=
  ⟨_, fun _ hb => List.mem_takeWhile_imp hb,
    by rw [skipWhile_rest, List.takeWhile_append_dropWhile]⟩

theorem Cursor.delims_skipDelimiters (c : Cursor) :
    ∃ d, Delims d ∧ c.rest = d ++ c.skipDelimiters.rest := by
  refine ⟨_, fun b hb => ?_, by rw [Cursor.skipDelimiters_rest, List.takeWhile_append_dropWhile]⟩
  simpa using List.mem_takeWhile_imp hb

theorem dropWhile_self {p : UInt8 → Bool} {x : List UInt8}
    (hx : ∀ b, x.head? = some b → p b = false) : x.dropWhile p = x := by
  cases x with
  | nil => rfl
  | cons b x => exact List.dropWhile_cons_of_neg (by simp [hx b rfl])

/-- Dropping a run of kept bytes stops at the first byte that is not kept. -/
theorem dropWhile_run {p : UInt8 → Bool} {w x : List UInt8} (hw : ∀ b ∈ w, p b = true)
    (hx : ∀ b, x.head? = some b → p b = false) : (w ++ x).dropWhile p = x := by
  rw [List.dropWhile_append_of_pos hw, dropWhile_self hx]

theorem dropWhile_blanks {w x : List UInt8} (hw : Blanks w)
    (hx : ∀ b, x.head? = some b → isBlank b = false) : (w ++ x).dropWhile isBlank = x :=
  dropWhile_run hw hx

theorem dropWhile_blanks_cons {w x : List UInt8} {b : UInt8} (hw : Blanks w)
    (hb : isBlank b = false) : (w ++ b :: x).dropWhile isBlank = b :: x :=
  dropWhile_blanks hw fun _ h => Option.some.inj h ▸ hb

/-! ## §7 Trimming and splitting -/

/-- Trimming a word with blanks around it gives the word, when the word neither starts nor ends
with a blank. -/
theorem dropWhile_of_forall {p : UInt8 → Bool} {w : List UInt8} (hw : ∀ b ∈ w, p b = true) :
    w.dropWhile p = [] := by
  simpa using dropWhile_run (x := []) hw (fun _ hb => nomatch hb)

theorem trimBlanks_eq {ws₁ w ws₂ : List UInt8} (h₁ : Blanks ws₁) (h₂ : Blanks ws₂)
    (hhead : ∀ b, w.head? = some b → isBlank b = false)
    (hlast : ∀ b, w.reverse.head? = some b → isBlank b = false) :
    trimBlanks (ws₁ ++ w ++ ws₂) = w := by
  unfold trimBlanks
  rw [List.append_assoc, List.dropWhile_append_of_pos h₁]
  cases w with
  | nil =>
    rw [List.nil_append, dropWhile_of_forall h₂]
    rfl
  | cons a w =>
    rw [List.cons_append, List.dropWhile_cons_of_neg (by simp [hhead a rfl]), ← List.cons_append,
      List.reverse_append, dropWhile_run (fun b hb => h₂ b (List.mem_reverse.1 hb)) hlast,
      List.reverse_reverse]

theorem trimBlanks_of_forall {ws₁ w ws₂ : List UInt8} (h₁ : Blanks ws₁) (h₂ : Blanks ws₂)
    (hw : ∀ b ∈ w, isBlank b = false) : trimBlanks (ws₁ ++ w ++ ws₂) = w :=
  trimBlanks_eq h₁ h₂ (fun b hb => hw b (List.mem_of_head? hb))
    (fun b hb => hw b (List.mem_reverse.1 (List.mem_of_head? hb)))

/-- Every text is its trimmed form with blanks around it. -/
theorem exists_trimBlanks (s : List UInt8) :
    ∃ l r, Blanks l ∧ Blanks r ∧ s = l ++ trimBlanks s ++ r := by
  obtain ⟨t, ht⟩ : ∃ t, t = s.dropWhile isBlank := ⟨_, rfl⟩
  refine ⟨s.takeWhile isBlank, (t.reverse.takeWhile isBlank).reverse,
    fun b hb => List.mem_takeWhile_imp hb,
    fun b hb => List.mem_takeWhile_imp (List.mem_reverse.1 hb), ?_⟩
  -- the trimmed text is what is left once the blanks at both ends are taken off
  have ht' : t = trimBlanks s ++ (t.reverse.takeWhile isBlank).reverse := by
    unfold trimBlanks
    rw [← ht, ← List.reverse_append, List.takeWhile_append_dropWhile, List.reverse_reverse]
  rw [List.append_assoc, ← ht', ht, List.takeWhile_append_dropWhile]

theorem splitFirst_cons (sep x : UInt8) (s : List UInt8) :
    splitFirst sep (x :: s) =
      if x = sep then some ([], s) else (splitFirst sep s).map fun r => (x :: r.1, r.2) := by
  unfold splitFirst
  by_cases hx : x = sep
  · simp [hx]
  · have hne : (x != sep) = true := by simpa using hx
    simp only [List.takeWhile_cons, hne, if_true, hx, if_false, List.length_cons]
    split <;> simp_all

/-- Splitting at the first separator: the text before it holds none. -/
theorem splitFirst_eq_some_iff {sep : UInt8} {s a b : List UInt8} :
    splitFirst sep s = some (a, b) ↔ s = a ++ sep :: b ∧ sep ∉ a := by
  induction s generalizing a with
  | nil => simp [splitFirst]
  | cons x s ih =>
    rw [splitFirst_cons]
    by_cases hx : x = sep
    · rw [if_pos hx]
      subst hx
      cases a with
      | nil => simp
      | cons y a =>
        constructor
        · intro h
          cases h
        · rintro ⟨h, hna⟩
          obtain ⟨rfl, -⟩ := List.cons.inj h
          exact absurd List.mem_cons_self hna
    · rw [if_neg hx, Option.map_eq_some_iff]
      cases a with
      | nil =>
        constructor
        · rintro ⟨r, -, h⟩
          cases h
        · rintro ⟨h, -⟩
          exact absurd (List.cons.inj h).1 hx
      | cons y a =>
        constructor
        · rintro ⟨⟨a', b'⟩, hs, h⟩
          obtain ⟨h1, rfl⟩ := Prod.mk.inj h
          obtain ⟨rfl, rfl⟩ := List.cons.inj h1
          obtain ⟨rfl, hna⟩ := ih.1 hs
          exact ⟨rfl, List.not_mem_cons_of_ne_of_not_mem (Ne.symm hx) hna⟩
        · rintro ⟨h, hna⟩
          obtain ⟨rfl, hs⟩ := List.cons.inj h
          exact ⟨(a, b), ih.2 ⟨hs, List.not_mem_of_not_mem_cons hna⟩, rfl⟩

theorem splitFirst_eq_none_iff {sep : UInt8} {s : List UInt8} :
    splitFirst sep s = none ↔ sep ∉ s := by
  induction s with
  | nil => simp [splitFirst]
  | cons x s ih =>
    rw [splitFirst_cons]
    by_cases hx : x = sep
    · simp [hx]
    · simp [hx, ih, Ne.symm hx]

/-! ## §8 Decimal sizes -/

theorem isNumber_iff {s : List UInt8} : isNumber s = true ↔ Decimal s := by
  simp [isNumber, Decimal, IsDigit, UInt8.le_iff_toNat_le]

theorem digitValue?_eq {b : UInt8} :
    Size.digitValue? b = if IsDigit b then some (b.toNat - 48) else none := by
  have hd : (48 ≤ b ∧ b ≤ 57) ↔ IsDigit b := by simp [IsDigit, UInt8.le_iff_toNat_le]
  unfold Size.digitValue?
  by_cases h : IsDigit b
  · rw [if_pos (hd.2 h), if_pos h]
  · rw [if_neg (mt hd.1 h), if_neg h]

theorem foldl_digits_none (w : List UInt8) :
    w.foldl (fun acc b => acc.bind fun a => (Size.digitValue? b).map (a * 10 + ·)) none = none := by
  induction w with
  | nil => rfl
  | cons b w ih => exact ih

theorem foldl_digits_some (w : List UInt8) (n : Nat) :
    w.foldl (fun acc b => acc.bind fun a => (Size.digitValue? b).map (a * 10 + ·)) (some n) =
      if ∀ b ∈ w, IsDigit b then some (w.foldl (fun n b => n * 10 + (b.toNat - 48)) n)
      else none := by
  induction w generalizing n with
  | nil => simp
  | cons b w ih =>
    rw [List.foldl_cons, Option.bind_some, digitValue?_eq]
    by_cases hb : IsDigit b
    · simp only [hb, if_true, Option.map_some, ih, List.foldl_cons, List.forall_mem_cons,
        true_and]
    · simp only [hb, if_false, Option.map_none, foldl_digits_none, List.forall_mem_cons,
        false_and]

/-- Reading a size: the digits are a size text, and the value is theirs. -/
theorem ofDigits?_eq_some_iff {w : List UInt8} {v : Nat} :
    Size.ofDigits? w = some v ↔ SizeText w ∧ decimalValue w = v := by
  unfold Size.ofDigits? SizeText Decimal decimalValue
  rw [foldl_digits_some]
  by_cases hw : w = []
  · simp [hw]
  · by_cases hd : ∀ b ∈ w, IsDigit b
    · simp only [List.isEmpty_iff, hw, if_false]
      split <;> simp_all [eq_comm]
    · simp [hw, hd]

theorem ofDigits?_eq_none_iff {w : List UInt8} : Size.ofDigits? w = none ↔ ¬SizeText w := by
  rw [← not_iff_not, ← ne_eq, Option.ne_none_iff_exists', not_not]
  simp [ofDigits?_eq_some_iff]

/-! ## §9 Hex bytes and quoted text -/

theorem hexByte_complete {w rest : List UInt8} (hw : HexByte w) {c : Cursor}
    (hc : c.rest = w ++ rest) : ∃ v d, hexByte c = .ok (v, d) ∧ d.1.rest = rest := by
  obtain ⟨h, l, rfl, hh, hl⟩ := hw
  obtain ⟨x, hx⟩ := Option.isSome_iff_exists.1 (hexValue?_isSome_iff.2 hh)
  obtain ⟨y, hy⟩ := Option.isSome_iff_exists.1 (hexValue?_isSome_iff.2 hl)
  obtain ⟨pos, s⟩ := c
  dsimp only at hc
  subst hc
  refine ⟨x * 16 + y, ?_⟩
  unfold hexByte
  simp only [List.cons_append, List.nil_append, hx, hy]
  exact ⟨_, rfl, rfl⟩

theorem hexByte_sound {c : Cursor} {v : UInt8} {d : Past c} (h : hexByte c = .ok (v, d)) :
    ∃ w, c.rest = w ++ d.1.rest ∧ HexByte w := by
  unfold hexByte at h
  split at h
  · cases h
  · split at h <;> cases h
  · rename_i hb lb t heq
    split at h
    · cases h
    · cases h
    · rename_i x y hx hy
      cases h
      exact ⟨[hb, lb], heq, hb, lb, rfl, hexValue?_isSome_iff.1 (by simp [hx]),
        hexValue?_isSome_iff.1 (by simp [hy])⟩

theorem quotedBody_complete {q : UInt8} {body : List UInt8} (hq : q ∉ body)
    (ha : q = 39 → ∀ b ∈ body, b.toNat < 128) (start pos : Nat) (rest : List UInt8) :
    ∃ d, quotedBody q start pos (body ++ q :: rest) = .ok (body, d) ∧ d.1.rest = rest := by
  induction body generalizing pos with
  | nil => exact ⟨⟨⟨pos + 1, rest⟩, by simp⟩, by simp [quotedBody], rfl⟩
  | cons b body ih =>
    obtain ⟨hb, hq'⟩ := List.ne_and_not_mem_of_not_mem_cons hq
    have hascii : ¬(q = 39 ∧ 128 ≤ b) := by
      rintro ⟨rfl, hbig⟩
      have := ha rfl b List.mem_cons_self
      rw [UInt8.le_iff_toNat_le] at hbig
      simp at hbig
      omega
    obtain ⟨⟨d, hdl⟩, hd, hr⟩ :=
      ih hq' (fun h x hx => ha h x (List.mem_cons_of_mem _ hx)) (pos + 1)
    show ∃ d', quotedBody q start pos (b :: (body ++ q :: rest)) = .ok (b :: body, d') ∧
      d'.1.rest = rest
    rw [quotedBody, if_neg (Ne.symm hb), if_neg hascii, hd]
    exact ⟨_, rfl, hr⟩

theorem quotedBody_sound {q : UInt8} {start pos : Nat} {s body : List UInt8}
    {d : { d : Cursor // d.rest.length < s.length }}
    (h : quotedBody q start pos s = .ok (body, d)) :
    s = body ++ q :: d.1.rest ∧ q ∉ body ∧ (q = 39 → ∀ b ∈ body, b.toNat < 128) := by
  induction s generalizing pos body with
  | nil => cases h
  | cons b s ih =>
    unfold quotedBody at h
    split at h
    · rename_i hb
      cases h
      exact ⟨by simp [hb], List.not_mem_nil, fun _ _ hx => nomatch hx⟩
    · rename_i hb
      split at h
      · cases h
      · rename_i hascii
        split at h
        · cases h
        · rename_i body' d' hd' heq
          cases h
          obtain ⟨hs, hq, ha⟩ := ih heq
          refine ⟨by simp [hs], List.not_mem_cons_of_ne_of_not_mem (Ne.symm hb) hq, fun hq39 x hx => ?_⟩
          rcases List.mem_cons.1 hx with rfl | hx
          · rw [UInt8.le_iff_toNat_le] at hascii
            simp only [hq39, true_and] at hascii
            simp at hascii
            omega
          · exact ha hq39 x hx

theorem quoted_complete {q : UInt8} {body rest : List UInt8} (hq : QuoteBody q body) {c : Cursor}
    (hc : c.rest = q :: (body ++ q :: rest)) :
    ∃ d, quoted c = .ok (body, d) ∧ d.1.rest = rest := by
  obtain ⟨hne, hnot, ha⟩ := hq
  obtain ⟨pos, s⟩ := c
  dsimp only at hc
  subst hc
  obtain ⟨⟨d, hdl⟩, hd, hr⟩ := quotedBody_complete hnot ha pos (pos + 1) rest
  unfold quoted
  dsimp only
  rw [hd]
  obtain ⟨b, body', rfl⟩ := List.exists_cons_of_ne_nil hne
  exact ⟨_, rfl, hr⟩

theorem quoted_sound {c : Cursor} {v : List UInt8} {d : Past c} (h : quoted c = .ok (v, d)) :
    ∃ q, c.rest = q :: v ++ q :: d.1.rest ∧ QuoteBody q v := by
  unfold quoted at h
  split at h
  · cases h
  · rename_i q body heq
    split at h
    · cases h
    · cases h
    · rename_i b bytes d' hd' hbody
      cases h
      obtain ⟨hs, hq, ha⟩ := quotedBody_sound hbody
      exact ⟨q, heq.trans (congrArg (q :: ·) hs), List.cons_ne_nil _ _, hq, ha⟩

/-- Read from a quote byte, quoted text is a word of the grammar. -/
theorem quoted_sound_of_quote {c : Cursor} {q : UInt8} {t v : List UInt8} {d : Past c}
    (hc : c.rest = q :: t) (hq : q = 39 ∨ q = 96) (h : quoted c = .ok (v, d)) :
    ∃ w, c.rest = w ++ d.1.rest ∧ Quoted w := by
  obtain ⟨q', hs, hbody⟩ := quoted_sound h
  obtain rfl : q' = q := (List.cons.inj (hs.symm.trans hc)).1
  exact ⟨q' :: v ++ [q'], hs.trans (by simp), q', v, hq, hbody, rfl⟩

/-! ## §10 The closing bracket -/

/-- Inside a quotation the scan passes over everything up to the closing delimiter. -/
theorem closeBracket_quoted {q : UInt8} {body : List UInt8} (hq : q ∉ body) (start : Nat)
    {x v : List UInt8} {pos' : Nat} {d : { d : Cursor // d.rest.length < x.length }}
    (hx : closeBracket start none pos' x = .ok (v, d)) (pos : Nat)
    (hpos : pos' = pos + body.length + 1) :
    ∃ d', closeBracket start (some q) pos (body ++ q :: x) = .ok (body ++ q :: v, d') ∧
      d'.1 = d.1 := by
  obtain ⟨dd, hdd⟩ := d
  induction body generalizing pos with
  | nil =>
    simp only [List.length_nil, Nat.add_zero] at hpos
    subst hpos
    show ∃ d', closeBracket start (some q) pos (q :: x) = .ok (q :: v, d') ∧ d'.1 = dd
    rw [closeBracket]
    dsimp only
    rw [if_pos rfl, hx]
    exact ⟨_, rfl, rfl⟩
  | cons b body ih =>
    obtain ⟨hb, hq'⟩ := List.ne_and_not_mem_of_not_mem_cons hq
    obtain ⟨⟨d', hdl'⟩, hd', he⟩ := ih hq' (pos + 1) (by simp only [List.length_cons] at hpos; omega)
    show ∃ d'', closeBracket start (some q) pos (b :: (body ++ q :: x)) =
      .ok (b :: (body ++ q :: v), d'') ∧ d''.1 = dd
    rw [closeBracket]
    dsimp only
    rw [if_neg (Ne.symm hb), hd']
    exact ⟨_, rfl, he⟩

theorem closeBracket_complete {w : List UInt8} (hw : Clean w) (start pos : Nat)
    (rest : List UInt8) :
    ∃ d, closeBracket start none pos (w ++ 93 :: rest) = .ok (w, d) ∧ d.1.rest = rest := by
  induction hw generalizing pos with
  | nil =>
    show ∃ d, closeBracket start none pos (93 :: rest) = .ok ([], d) ∧ d.1.rest = rest
    rw [closeBracket]
    dsimp only
    rw [if_neg (by decide), if_neg (by decide), if_pos rfl]
    exact ⟨_, rfl, rfl⟩
  | @plain b w h1 h2 h3 h4 _ ih =>
    obtain ⟨⟨d, hdl⟩, hd, hr⟩ := ih (pos + 1)
    show ∃ d', closeBracket start none pos (b :: (w ++ 93 :: rest)) = .ok (b :: w, d') ∧
      d'.1.rest = rest
    rw [closeBracket]
    dsimp only
    rw [if_neg (by rintro (h | h) <;> contradiction), if_neg h3, if_neg h4, hd]
    exact ⟨_, rfl, hr⟩
  | @quote q body w hq hb _ ih =>
    obtain ⟨⟨d, hdl⟩, hd, hr⟩ := ih (pos + 1 + body.length + 1)
    obtain ⟨⟨d', hdl'⟩, hd', he⟩ := closeBracket_quoted hb start hd (pos + 1) rfl
    rw [List.append_assoc]
    show ∃ d'', closeBracket start none pos (q :: (body ++ q :: (w ++ 93 :: rest))) =
      .ok (q :: (body ++ q :: w), d'') ∧ d''.1.rest = rest
    rw [closeBracket]
    dsimp only
    rw [if_pos hq, hd']
    refine ⟨_, rfl, ?_⟩
    dsimp only at he ⊢
    rw [he]
    exact hr

/-- What the scan read from a state: clean text, or, inside a quotation, the rest of the
quotation and clean text. -/
def CleanFrom : Option UInt8 → List UInt8 → Prop
  | none, v => Clean v
  | some q, v => ∃ body w, v = body ++ q :: w ∧ q ∉ body ∧ Clean w

/-- Reading on past a byte: the body is the byte followed by what the rest of the bracket
reads, and the cursor is the one the rest leaves. -/
theorem readOn_eq_ok {b : UInt8} {s : List UInt8}
    (g : ∀ d : Cursor, d.rest.length < s.length → d.rest.length < (b :: s).length)
    {r : Except Fault (List UInt8 × { d : Cursor // d.rest.length < s.length })} {v : List UInt8}
    {d : { d : Cursor // d.rest.length < (b :: s).length }}
    (h : (match r with
        | .error e => .error e
        | .ok (body, ⟨d, hd⟩) => .ok (b :: body, ⟨d, g d hd⟩) :
          Except Fault (List UInt8 × { d : Cursor // d.rest.length < (b :: s).length })) =
        .ok (v, d)) :
    ∃ body hd, r = .ok (body, ⟨d.1, hd⟩) ∧ v = b :: body := by
  rcases r with e | ⟨body, d', hd'⟩
  · cases h
  · have e := Except.ok.inj h
    have hd : d' = d.1 := congrArg (fun x => x.2.1) e
    subst hd
    exact ⟨body, hd', rfl, (congrArg Prod.fst e).symm⟩

theorem closeBracket_sound {start : Nat} {quote : Option UInt8} {pos : Nat} {s v : List UInt8}
    {d : { d : Cursor // d.rest.length < s.length }}
    (h : closeBracket start quote pos s = .ok (v, d)) :
    s = v ++ 93 :: d.1.rest ∧ CleanFrom quote v := by
  induction s generalizing quote pos v with
  | nil => cases h
  | cons b s ih =>
    unfold closeBracket at h
    -- every branch but the closing `]` reads on past `b`, the rest read from some state
    have hlt : ∀ d : Cursor, d.rest.length < s.length → d.rest.length < (b :: s).length :=
      fun _ hd => Nat.lt_succ_of_lt hd
    cases quote with
    | some q =>
      obtain ⟨v', hd, heq, rfl⟩ := readOn_eq_ok hlt h
      obtain ⟨hs, hc⟩ := ih heq
      refine ⟨by simp [hs], ?_⟩
      by_cases hb : b = q
      · subst hb
        simp only [if_true] at hc
        exact ⟨[], v', rfl, List.not_mem_nil, hc⟩
      · simp only [hb, if_false] at hc
        obtain ⟨body, w, rfl, hq, hw⟩ := hc
        exact ⟨b :: body, w, rfl, List.not_mem_cons_of_ne_of_not_mem (Ne.symm hb) hq, hw⟩
    | none =>
      dsimp only at h
      split at h
      · rename_i hq
        obtain ⟨v', hd, heq, rfl⟩ := readOn_eq_ok hlt h
        obtain ⟨hs, body, w, rfl, hb, hw⟩ := ih heq
        refine ⟨by simp [hs], ?_⟩
        exact .quote hq hb hw
      · split at h
        · cases h
        · split at h
          · rename_i hq h91 h93
            have e := Except.ok.inj h
            have hv : [] = v := congrArg Prod.fst e
            have hd : (⟨pos + 1, s⟩ : Cursor) = d.1 := congrArg (fun x => x.2.1) e
            subst hv
            exact ⟨by rw [h93, ← hd]; rfl, .nil⟩
          · rename_i hq h91 h93
            obtain ⟨v', hd, heq, rfl⟩ := readOn_eq_ok hlt h
            obtain ⟨hs, hc⟩ := ih heq
            rw [not_or] at hq
            exact ⟨by simp [hs], .plain hq.1 hq.2 h91 h93 hc⟩

/-! ## §11 Gap bounds in brackets -/

/-- Bracket text splits into gap bounds exactly when it has the gap form. -/
theorem gapBounds?_eq_some_iff {content lo hi : List UInt8} :
    gapBounds? content = some (lo, hi) ↔ GapForm content lo hi := by
  constructor
  · intro h
    unfold gapBounds? at h
    split at h
    · cases h
    · rename_i before after hsplit
      obtain ⟨hcontent, -⟩ := splitFirst_eq_some_iff.1 hsplit
      dsimp only at h
      split at h
      · rename_i hcond
        obtain ⟨hlo_eq, hhi_eq⟩ := Prod.mk.inj (Option.some.inj h)
        rw [hlo_eq, hhi_eq] at hcond
        obtain ⟨hlo, hhi, hlen⟩ := hcond
        obtain ⟨l₁, r₁, hl₁, hr₁, hb⟩ := exists_trimBlanks before
        obtain ⟨l₂, r₂, hl₂, hr₂, ha⟩ := exists_trimBlanks after
        rw [hlo_eq] at hb
        rw [hhi_eq] at ha
        refine ⟨l₁, r₁, l₂, r₂, hl₁, hr₁, hl₂, hr₂, ?_, isNumber_iff.1 hlo,
          hhi.imp isNumber_iff.1 id, hlen⟩
        rw [hcontent, hb, ha]
        simp
      · cases h
  · rintro ⟨ws₁, ws₂, ws₃, ws₄, h₁, h₂, h₃, h₄, rfl, hlo, hhi, hlen⟩
    have hlo' : ∀ b ∈ lo, isBlank b = false := Decimal.not_blank hlo
    have hhi' : ∀ b ∈ hi, isBlank b = false := by
      rcases hhi with hhi | rfl
      · exact Decimal.not_blank hhi
      · intro b hb
        rw [List.mem_singleton.1 hb]
        rfl
    have hno : (58 : UInt8) ∉ ws₁ ++ lo ++ ws₂ := by
      intro hm
      simp only [List.mem_append] at hm
      rcases hm with (hm | hm) | hm
      · exact absurd (h₁ _ hm) (by decide)
      · have := hlo.2 _ hm
        unfold IsDigit at this
        simp at this
      · exact absurd (h₂ _ hm) (by decide)
    unfold gapBounds?
    rw [show ws₁ ++ lo ++ ws₂ ++ 58 :: ws₃ ++ hi ++ ws₄ = (ws₁ ++ lo ++ ws₂) ++ 58 :: (ws₃ ++ hi ++ ws₄)
      by simp, (splitFirst_eq_some_iff.2 ⟨rfl, hno⟩)]
    dsimp only
    rw [trimBlanks_of_forall h₁ h₂ hlo', trimBlanks_of_forall h₃ h₄ hhi', if_pos]
    exact ⟨isNumber_iff.2 hlo, hhi.imp isNumber_iff.2 id, hlen⟩

theorem gapBounds?_eq_none_iff {content : List UInt8} :
    gapBounds? content = none ↔ ∀ lo hi, ¬GapForm content lo hi := by
  constructor
  · intro h lo hi hg
    rw [gapBounds?_eq_some_iff.2 hg] at h
    cases h
  · intro h
    cases hb : gapBounds? content with
    | none => rfl
    | some r => exact absurd (gapBounds?_eq_some_iff.1 hb) (h r.1 r.2)

end Parser

end ContainerProbe.Pattern
