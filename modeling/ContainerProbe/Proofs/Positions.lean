import Mathlib
import ContainerProbe.Proofs.Canonical
import ContainerProbe.Proofs.WellFormed

/-!
# Where syntax errors are reported

The reader of pattern expressions reports a problem at the byte position where the offending
construct starts. This module shows that such a position always lies in the text: every reader
takes a cursor whose position counts the bytes before those it has left (`Cursor.Within`), and
returns either a problem at a position no further than the text's end or a cursor of the same
kind (`Reads`). Each reader is checked against its definition, the loops by functional
induction.

Normalizing rewrites in place: each character of the text as written keeps its place and its
width, so the UTF-8 bytes of the two texts line up one to one and differ only where an ASCII `^`,
`[` or `-` was rewritten. A position in the canonical text, which the reader reports, is then
the same position in the text as written.

## Main statements

* `Pattern.Parser.parse_reports`: every problem is reported at a byte position of the text.
* `Canonical.normalize_rewrites_in_place`: normalizing keeps every character's place, changes
  only `^`, `[` and `-` outside quotations, keeps the byte length and the bytes, and the
  position of a syntax error in a pattern as written is a position of that text.
-/

namespace ContainerProbe.Pattern.Parser

/-! ## §1 Cursors into a text -/

/-- A problem, if any, is reported at a position no further than `n`. -/
def Reports {α : Type} (n : Nat) (r : Except Fault α) : Prop :=
  ∀ p prob, r = .error (.badPattern p prob) → p ≤ n

/-- A cursor into a text of `n` bytes: its position counts the bytes before those it has left. -/
def Cursor.Within (n : Nat) (c : Cursor) : Prop := c.pos + c.rest.length = n

/-- What a reader returns from a cursor into a text of `n` bytes: a problem at a position of the
text, or a cursor into the same text. -/
structure Reads {β : Type} {P : Cursor → Prop} (n : Nat) (r : Except Fault (β × Subtype P)) :
    Prop where
  reports : Reports n r
  within : ∀ b d, r = .ok (b, d) → d.1.Within n

section

variable {n : Nat}

theorem reports_fail {α : Type} {p : Nat} (prob : SyntaxProblem) (h : p ≤ n) :
    Reports n (fail p prob : Except Fault α) := by
  intro p' prob' he
  cases he
  exact h

theorem reports_ok {α : Type} (a : α) : Reports n (.ok a : Except Fault α) := by
  intro p prob he
  cases he

/-- A problem passed on from an inner reader. -/
theorem Reports.of_error {α β : Type} {r : Except Fault α} {e : Fault} (hr : Reports n r)
    (he : r = .error e) : Reports n (.error e : Except Fault β) := by
  intro p prob h
  cases h
  exact hr p prob he

theorem Reports.map {α β : Type} {r : Except Fault α} (hr : Reports n r) (f : α → β) :
    Reports n (r.map f) := by
  cases r with
  | error e => exact hr.of_error rfl
  | ok a => exact reports_ok _

theorem Reads.fail {β : Type} {P : Cursor → Prop} {p : Nat} (prob : SyntaxProblem) (h : p ≤ n) :
    Reads n (Parser.fail p prob : Except Fault (β × Subtype P)) :=
  ⟨reports_fail prob h, fun _ _ he => by cases he⟩

theorem Reads.ok {β : Type} {P : Cursor → Prop} (b : β) (d : Subtype P) (h : d.1.Within n) :
    Reads n (.ok (b, d) : Except Fault (β × Subtype P)) :=
  ⟨reports_ok _, fun _ _ he => by cases he; exact h⟩

theorem Reads.of_error {α β : Type} {P : Cursor → Prop} {r : Except Fault α} {e : Fault}
    (hr : Reports n r) (he : r = .error e) : Reads n (.error e : Except Fault (β × Subtype P)) :=
  ⟨hr.of_error he, fun _ _ h => by cases h⟩

/-- A value read with no cursor of its own, paired with a cursor into the text. -/
theorem Reports.pair {α : Type} {P : Cursor → Prop} {r : Except Fault α} (hr : Reports n r)
    {d : Subtype P} (hd : d.1.Within n) : Reads n (r.map fun a => (a, d)) := by
  cases r with
  | error e => exact .of_error hr rfl
  | ok a => exact .ok _ _ hd

theorem Reads.map {β γ : Type} {P : Cursor → Prop} {r : Except Fault (β × Subtype P)}
    (h : Reads n r) (f : β → γ) : Reads n (r.map fun x => (f x.1, x.2)) := by
  cases r with
  | error e => exact .of_error h.reports rfl
  | ok x => exact .ok _ _ (h.within _ _ rfl)

theorem Cursor.within_mk {pos : Nat} {rest : List UInt8} :
    (⟨pos, rest⟩ : Cursor).Within n ↔ pos + rest.length = n := Iff.rfl

theorem Cursor.Within.pos_le {c : Cursor} (h : c.Within n) : c.pos ≤ n := by
  unfold Cursor.Within at h
  omega

/-- The cursor past the first byte left is in the same text. -/
theorem Cursor.Within.next {c : Cursor} (h : c.Within n) {b : UInt8} {t : List UInt8}
    (ht : c.rest = b :: t) : (⟨c.pos + 1, t⟩ : Cursor).Within n := by
  unfold Cursor.Within at h
  rw [ht, List.length_cons] at h
  exact Cursor.within_mk.mpr (by omega)

/-- Stepping over the first byte left, if there is one, stays in the text. -/
theorem Cursor.Within.step {c : Cursor} (h : c.Within n) (hne : c.rest ≠ []) :
    (⟨c.pos + 1, c.rest.drop 1⟩ : Cursor).Within n := by
  obtain ⟨b, t, ht⟩ := List.exists_cons_of_ne_nil hne
  rw [ht, List.drop_succ_cons, List.drop_zero]
  exact h.next ht

theorem skipWhile_within (keep : UInt8 → Bool) (pos : Nat) (s : List UInt8) :
    (skipWhile keep pos s).Within (pos + s.length) := by
  induction s generalizing pos with
  | nil => rfl
  | cons b bs ih =>
    unfold skipWhile
    split
    · rw [List.length_cons, ← Nat.add_assoc, Nat.add_right_comm]
      exact ih (pos + 1)
    · rfl

theorem Cursor.Within.skipWhile {c : Cursor} (h : c.Within n) (keep : UInt8 → Bool) :
    (skipWhile keep c.pos c.rest).Within n :=
  h ▸ skipWhile_within _ _ _

theorem Cursor.Within.skipBlanks {c : Cursor} (h : c.Within n) : c.skipBlanks.Within n :=
  h.skipWhile _

theorem Cursor.Within.skipDelimiters {c : Cursor} (h : c.Within n) : c.skipDelimiters.Within n :=
  h.skipWhile _

/-! ## §2 Hex bytes and quoted text -/

theorem hexByte_reads {c : Cursor} (hc : c.Within n) : Reads n (hexByte c) := by
  unfold hexByte
  split
  · exact .fail _ hc.pos_le
  · rename_i hb heq
    split
    · exact .fail _ hc.pos_le
    · exact .fail _ (hc.next heq).pos_le
  · rename_i hb lb t heq
    split
    · exact .fail _ hc.pos_le
    · exact .fail _ (hc.next heq).pos_le
    · exact .ok _ _ ((hc.next heq).next rfl)

theorem quotedBody_reads (delim : UInt8) {start : Nat} (hstart : start ≤ n) {pos : Nat}
    {s : List UInt8} (hs : pos + s.length = n) : Reads n (quotedBody delim start pos s) := by
  induction s generalizing pos with
  | nil => exact .fail _ hstart
  | cons b bs ih =>
    simp only [List.length_cons] at hs
    have ih : Reads n (quotedBody delim start (pos + 1) bs) := ih (by omega)
    unfold quotedBody
    split
    · exact .ok _ _ (Cursor.within_mk.mpr (by omega))
    · split
      · exact .fail _ (by omega)
      · split
        · rename_i e he
          exact .of_error ih.reports he
        · rename_i body d hd he
          exact .ok _ _ (ih.within _ _ he)

theorem quoted_reads {c : Cursor} (hc : c.Within n) : Reads n (quoted c) := by
  unfold quoted
  split
  · exact .fail _ hc.pos_le
  · rename_i q body heq
    have hbody : Reads n (quotedBody q c.pos (c.pos + 1) body) :=
      quotedBody_reads q hc.pos_le (hc.next heq)
    split
    · rename_i e he
      exact .of_error hbody.reports he
    · exact .fail _ hc.pos_le
    · rename_i b bytes d hd he
      exact .ok _ _ (hbody.within _ _ he)

/-! ## §3 Brackets and braces -/

/-- Reading on past a byte keeps what the rest of a bracket reads. -/
theorem Reads.readOn {b : UInt8} {s : List UInt8}
    (g : ∀ d : Cursor, d.rest.length < s.length → d.rest.length < (b :: s).length)
    {r : Except Fault (List UInt8 × { d : Cursor // d.rest.length < s.length })} :
    Reads n r → Reads n (match r with
      | .error e => .error e
      | .ok (body, ⟨d, hd⟩) => .ok (b :: body, ⟨d, g d hd⟩) :
        Except Fault (List UInt8 × { d : Cursor // d.rest.length < (b :: s).length })) := by
  intro h
  rcases r with e | ⟨body, d, hd⟩
  · exact .of_error h.reports rfl
  · exact .ok _ _ (h.within _ _ rfl)

theorem closeBracket_reads {start : Nat} (hstart : start ≤ n) {quote : Option UInt8} {pos : Nat}
    {s : List UInt8} (hs : pos + s.length = n) : Reads n (closeBracket start quote pos s) := by
  induction s generalizing pos quote with
  | nil => exact .fail _ hstart
  | cons b bs ih =>
    simp only [List.length_cons] at hs
    -- every branch but the closing `]` and a nested `[` reads on past `b`
    have hnext : ∀ {q}, Reads n (closeBracket start q (pos + 1) bs) := ih (by omega)
    have hlt : ∀ d : Cursor, d.rest.length < bs.length → d.rest.length < (b :: bs).length :=
      fun _ hd => Nat.lt_succ_of_lt hd
    unfold closeBracket
    dsimp only
    split
    · exact hnext.readOn hlt
    · split
      · exact hnext.readOn hlt
      · split
        · exact .fail _ (by omega)
        · split
          · exact .ok _ _ (Cursor.within_mk.mpr (by omega))
          · exact hnext.readOn hlt

theorem members_reports {start : Nat} (hstart : start ≤ n) {c : Cursor} (hc : c.Within n)
    (acc : List (UInt8 × UInt8)) : Reports n (members start c acc) := by
  fun_induction members start c acc with
  | case1 => exact reports_fail _ hstart
  | case2 => exact reports_ok _
  | case3 c acc c1 _ q body hc1 _ _ e he =>
    exact (quoted_reads hc.skipDelimiters).reports.of_error he
  | case4 c acc c1 _ q body hc1 _ _ bytes d hd hok _ ih =>
    exact ih ((quoted_reads hc.skipDelimiters).within _ _ hok)
  | case5 c acc c1 _ b body hc1 _ _ e he =>
    exact (hexByte_reads hc.skipDelimiters).reports.of_error he
  | case6 c acc c1 _ b body hc1 _ _ lo d hd hlo d1 _ more h58 d2 _ e he =>
    -- a range: the second byte is read after the `:` and the blanks after it
    have hd : d.Within n := (hexByte_reads hc.skipDelimiters).within _ _ hlo
    exact (hexByte_reads ((hd.skipBlanks.next h58).skipWhile isBlank)).reports.of_error he
  | case7 c acc c1 _ b body hc1 _ _ lo d hd hlo d1 _ more h58 d2 _ hi e he hhi _ ih =>
    have hd : d.Within n := (hexByte_reads hc.skipDelimiters).within _ _ hlo
    exact ih ((hexByte_reads ((hd.skipBlanks.next h58).skipWhile isBlank)).within _ _ hhi)
  | case8 c acc c1 _ b body hc1 _ _ lo d hd hlo d1 _ _ _ ih =>
    exact ih ((hexByte_reads hc.skipDelimiters).within _ _ hlo).skipBlanks

theorem bracket_reads {c : Cursor} (hc : c.Within n) : Reads n (bracket c) := by
  unfold bracket
  split
  · exact .fail _ hc.pos_le
  · rename_i x body heq
    have hclose : Reads n (closeBracket c.pos none (c.pos + 1) body) :=
      closeBracket_reads hc.pos_le (hc.next heq)
    split
    · rename_i e he
      exact .of_error hclose.reports he
    · rename_i content after ha he
      have hafter : after.Within n := hclose.within _ _ he
      split
      · exact .ok _ _ hafter
      · dsimp only
        -- a set: its members are read after the blanks and the optional `!`
        have hc1 : (skipWhile isBlank (c.pos + 1) body).Within n := (hc.next heq).skipWhile isBlank
        split
        · rename_i e he'
          refine .of_error (members_reports hc.pos_le ?_ []) he'
          split
          · rename_i hbang
            exact hc1.step fun hnil => by simp [hnil] at hbang
          · exact hc1
        · exact .fail _ hc.pos_le
        · exact .ok _ _ hafter

theorem gapOfText_reports {start : Nat} (hstart : start ≤ n) (lo hi : List UInt8) :
    Reports n (gapOfText start lo hi) := by
  unfold gapOfText
  split
  · exact reports_fail _ hstart
  · split
    · exact reports_ok _
    · split
      · exact reports_fail _ hstart
      · split
        · exact reports_fail _ hstart
        · exact reports_ok _

theorem braceGap_reads {c : Cursor} (hc : c.Within n) : Reads n (braceGap c) := by
  unfold braceGap
  split
  · exact .fail _ hc.pos_le
  · rename_i x body heq
    dsimp only
    split
    · rename_i hlt
      -- past the closing brace: the bytes inside it, and the two braces
      have hafter : (⟨c.pos + (body.takeWhile (· != 125)).length + 2,
          body.drop ((body.takeWhile (· != 125)).length + 1)⟩ : Cursor).Within n := by
        unfold Cursor.Within at hc ⊢
        rw [heq, List.length_cons] at hc
        simp only [List.length_drop]
        omega
      split
      · exact .fail _ hc.pos_le
      · split
        · -- an upper bound that is not a number
          refine .of_error ?_ ‹_›
          split
          · exact reports_ok _
          · split
            · exact reports_ok _
            · split
              · exact reports_fail _ hc.pos_le
              · exact reports_ok _
        · split
          · exact .fail _ hc.pos_le
          · exact .ok _ _ hafter
        · exact .ok _ _ hafter
    · exact .fail _ hc.pos_le

/-! ## §4 Fragments and the whole text -/

theorem anyByte_reads {c : Cursor} (hc : c.Within n) : Reads n (anyByte c) := by
  unfold anyByte
  split
  · rename_i x t heq
    exact .ok _ _ ((hc.next heq).next rfl)
  · exact .fail _ hc.pos_le

theorem piece_reads {c : Cursor} (hc : c.Within n) : Reads n (piece c) := by
  unfold piece
  split
  · exact .fail _ hc.pos_le
  · split
    · exact (quoted_reads hc).map _
    · split
      · split
        · rename_i e he
          exact .of_error (bracket_reads hc).reports he
        · exact .fail _ hc.pos_le
        · rename_i cls d he
          exact .ok _ _ ((bracket_reads hc).within _ _ he)
      · split
        · exact .fail _ hc.pos_le
        · split
          · exact (anyByte_reads hc).map _
          · split
            · exact .fail _ hc.pos_le
            · split
              · exact .fail _ hc.pos_le
              · exact (hexByte_reads hc).map fun v => Piece.literal [v]

theorem branches_reads {start : Nat} (hstart : start ≤ n) {c : Cursor} (hc : c.Within n)
    (current : List Piece) (done : List (List Piece)) :
    Reads n (branches start c current done) := by
  fun_induction branches start c current done with
  | case1 => exact .fail _ hstart
  | case2 => exact .fail _ hc.skipBlanks.pos_le
  | case3 c current done c1 _ body _ _ hc1 _ _ =>
    exact .ok _ _ (hc.skipBlanks.next hc1)
  | case4 c current done c1 _ q body hc1 _ _ _ _ _ e he ih =>
    exact .of_error (ih (hc.skipBlanks.next hc1)).reports he
  | case5 c current done c1 _ q body hc1 _ _ _ _ _ bs d hd he ih =>
    exact .ok _ _ ((ih (hc.skipBlanks.next hc1)).within _ _ he)
  | case6 c current done c1 _ q body hc1 _ e he =>
    exact .of_error (piece_reads hc.skipBlanks).reports he
  | case7 c current done c1 _ q body hc1 _ p d hd hp _ e he ih =>
    exact .of_error (ih ((piece_reads hc.skipBlanks).within _ _ hp)).reports he
  | case8 c current done c1 _ q body hc1 _ p d hd hp _ bs e he' he ih =>
    exact .ok _ _ ((ih ((piece_reads hc.skipBlanks).within _ _ hp)).within _ _ he)

theorem alternatives_reads {c : Cursor} (hc : c.Within n) : Reads n (alternatives c) := by
  unfold alternatives
  split
  · exact .fail _ hc.pos_le
  · rename_i x t heq
    have hbs := branches_reads hc.pos_le (hc.next heq) [] []
    split
    · rename_i e he
      exact .of_error hbs.reports he
    · rename_i bs d hd he
      exact .ok _ _ (hbs.within _ _ he)

theorem fragment_reads {c : Cursor} (hc : c.Within n) : Reads n (fragment c) := by
  unfold fragment
  split
  · exact .fail _ hc.pos_le
  · rename_i b t heq
    split
    · exact (quoted_reads hc).map _
    · split
      · split
        · rename_i e he
          exact .of_error (bracket_reads hc).reports he
        · rename_i lo hi d he
          exact (gapOfText_reports hc.pos_le lo hi).pair ((bracket_reads hc).within _ _ he)
        · rename_i cls d he
          exact .ok _ _ ((bracket_reads hc).within _ _ he)
      · split
        · exact braceGap_reads hc
        · split
          · exact .ok _ _ (hc.next heq)
          · split
            · exact (anyByte_reads hc).map _
            · split
              · exact alternatives_reads hc
              · split
                · exact .fail _ hc.pos_le
                · exact (hexByte_reads hc).map fun v => Fragment.literal [v]

theorem fragments_reports {c : Cursor} (hc : c.Within n) (anchor : Anchor)
    (acc : List Fragment) : Reports n (fragments c anchor acc) := by
  fun_induction fragments c anchor acc with
  | case1 => exact reports_ok _
  | case2 => exact reports_ok _
  | case3 => exact reports_fail _ hc.skipBlanks.pos_le
  | case4 c anchor acc c1 _ b t _ e he =>
    exact (fragment_reads hc.skipBlanks).reports.of_error he
  | case5 c anchor acc c1 _ b t _ f d hd hf _ ih =>
    exact ih ((fragment_reads hc.skipBlanks).within _ _ hf)

/-- Every problem in a text is reported at a byte position of the text. -/
theorem parse_reports (text : String) : Reports text.toUTF8.toList.length (parse text) := by
  unfold parse
  dsimp only
  have hc0 : (skipWhile isBlank 0 text.toUTF8.toList).Within text.toUTF8.toList.length :=
    (Nat.zero_add _ ▸ skipWhile_within isBlank 0 text.toUTF8.toList :)
  split
  · -- the fragments are read after the blanks and an optional leading `^`
    refine (fragments_reports ?_ _ _).of_error ‹_›
    split
    · exact hc0.next ‹_›
    · exact hc0
  · exact reports_fail _ (Nat.zero_le _)
  · exact reports_ok _

end

end ContainerProbe.Pattern.Parser

namespace ContainerProbe

/-! ## §5 The bytes of a text -/

theorem ByteArray.toList_loop (bs : ByteArray) (i : Nat) (r : List UInt8) :
    ByteArray.toList.loop bs i r = r.reverse ++ bs.data.toList.drop i := by
  fun_induction ByteArray.toList.loop bs i r with
  | case1 i r hi ih =>
    have hdrop : bs.data.toList.drop i = bs.data[i] :: bs.data.toList.drop (i + 1) := by
      rw [List.drop_eq_getElem_cons (by simpa using hi), Array.getElem_toList]
    rw [ih, hdrop, List.reverse_cons, List.append_assoc, List.singleton_append]
    congr 2
    simp [ByteArray.get!, hi]
  | case2 i r hi =>
    rw [List.drop_of_length_le (by simpa using hi), List.append_nil]

theorem ByteArray.toList_eq_data (bs : ByteArray) : bs.toList = bs.data.toList := by
  simp [ByteArray.toList, ByteArray.toList_loop]

/-- The bytes of a text are the UTF-8 encodings of its characters, one after the other. -/
theorem String.toUTF8_toList (s : String) :
    s.toUTF8.toList = s.toList.flatMap String.utf8EncodeChar := by
  rw [ByteArray.toList_eq_data, ← List.toList_data_toByteArray (l := s.toList.flatMap _)]
  congr
  conv_lhs => rw [← String.ofList_toList (s := s)]
  exact String.toByteArray_ofList

theorem String.length_toUTF8_toList (s : String) : s.toUTF8.toList.length = s.utf8ByteSize := by
  rw [ByteArray.toList_eq_data, Array.length_toList, ByteArray.size_data]
  exact String.size_toByteArray

namespace Canonical

/-- A byte of a text as written and the byte in its place after normalizing: the same byte, or
the ASCII `^`, `[` or `-` replaced by `[`, `!` or `:`. -/
def RewrittenByte (b b' : UInt8) : Prop :=
  b' = b ∨ (b = 94 ∨ b = 91 ∨ b = 45) ∧ (b' = 91 ∨ b' = 33 ∨ b' = 58)

instance : DecidableRel RewrittenByte := fun _ _ => inferInstanceAs (Decidable (_ ∨ _))

/-- A rewritten character is ASCII on both sides, so its one byte is rewritten in place. -/
theorem forall₂_encode_rewritten {c c' : Char} (h : Rewritten c c') :
    List.Forall₂ RewrittenByte (String.utf8EncodeChar c) (String.utf8EncodeChar c') := by
  rcases h with rfl | ⟨hc, hc'⟩
  · exact List.forall₂_same.mpr fun b _ => .inl rfl
  · rcases hc with rfl | rfl | rfl <;> rcases hc' with rfl | rfl | rfl <;> decide

theorem forall₂_flatMap_encode {l l' : List Char} (h : List.Forall₂ Rewritten l l') :
    List.Forall₂ RewrittenByte (l.flatMap String.utf8EncodeChar)
      (l'.flatMap String.utf8EncodeChar) := by
  induction h with
  | nil => exact .nil
  | cons hc _ ih =>
    rw [List.flatMap_cons, List.flatMap_cons]
    exact List.rel_append (forall₂_encode_rewritten hc) ih

/-- Normalizing rewrites in place: every character keeps its place, and one that changes is an
ASCII `^`, `[` or `-` that becomes `[`, `!` or `:`; the text keeps its length in characters and
in bytes; nothing inside a quotation changes; the bytes of the two texts line up one to one;
and a syntax error in a pattern as written carries a byte position of that text. -/
theorem normalize_rewrites_in_place (raw : String) :
    List.Forall₂ Rewritten raw.toList (normalize raw).toList ∧
      (normalize raw).length = raw.length ∧
      (normalize raw).utf8ByteSize = raw.utf8ByteSize ∧
      (∀ (i : Nat) (q : Char), (quotations none raw.toList)[i]? = some (some q) →
        (normalize raw).toList[i]? = raw.toList[i]?) ∧
      List.Forall₂ RewrittenByte raw.toUTF8.toList (normalize raw).toUTF8.toList ∧
      ∀ pos problem, Pattern.compile raw = .error (.badPattern pos problem) →
        pos ≤ raw.utf8ByteSize := by
  have hchars := normalize_forall₂_rewritten raw
  have hbytes : List.Forall₂ RewrittenByte raw.toUTF8.toList (normalize raw).toUTF8.toList := by
    rw [String.toUTF8_toList, String.toUTF8_toList]
    exact forall₂_flatMap_encode hchars
  have hsize : (normalize raw).utf8ByteSize = raw.utf8ByteSize := by
    rw [← String.length_toUTF8_toList, ← String.length_toUTF8_toList]
    exact hbytes.length_eq.symm
  refine ⟨hchars, ?_, hsize, fun i q h => normalize_quoted_copied raw h, hbytes, ?_⟩
  · rw [← String.length_toList, ← String.length_toList]
    exact hchars.length_eq.symm
  · -- the reader reports a position of the canonical text, which has the same bytes
    intro pos problem h
    have hreports := (Pattern.Parser.parse_reports (normalize raw)).map
      fun r => Pattern.make (normalize raw) r.1 r.2
    rw [← hsize, ← String.length_toUTF8_toList]
    exact hreports pos problem h

end Canonical

end ContainerProbe
