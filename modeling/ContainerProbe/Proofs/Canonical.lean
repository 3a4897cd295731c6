import Mathlib
import ContainerProbe.Pattern.Parser

/-!
# Canonical text is a fixed point

`Canonical.normalize` rewrites legacy set syntax in one pass over the characters, carrying
the open quotation, the number of open sets and the character read before. Its output is
canonical: a second pass meets the same quotations and the same depths at the same places,
since every rewrite replaces a character by one that plays the same part (`^[` becomes `[!`,
still one set opened), and what a rewrite leaves behind (`!`, `:`) no rule touches.

The one rule that looks back is the `^` directly after a `[` inside a set. The second pass
sees the rewritten text, so the character before may differ: after `^[` became `[!` it is `!`
where the first pass saw `[`. That only matters at a `^` the first pass kept, and such a `^`
never follows a `[` of the rewritten text that the first pass did not also see. Likewise a
kept `^` at depth zero is never followed by a `[` opening a set the second pass would invert:
the only new `[` comes with a `!` after it.

## Main statements

* `normalizeFrom_normalizeFrom`: a second pass from the same state leaves the output of the
  first unchanged, whenever the second pass does not see a `[` before it that the first did not.
* `normalize_idempotent`: normalizing twice is normalizing once, so a canonical text compiles
  to the pattern of the text it came from.
* `normalize_forall₂_rewritten`, `normalize_quoted_copied`: every character stays where it is,
  copied or replaced by one of the rewrites of set syntax, and inside a quotation it is copied.
-/

namespace ContainerProbe.Canonical

/-! ## §1 Single characters outside quotations -/

/-- A character that no rule rewrites is copied, and leaves the state as it was. -/
theorem normalizeFrom_inert {d : Nat} {p : Option Char} {c : Char} {cs : List Char}
    (hc : c ∉ ['^', '\'', '`', '-', '[', ']']) :
    normalizeFrom none d p (c :: cs) = c :: normalizeFrom none d (some c) cs := by
  simp only [List.mem_cons, List.not_mem_nil, or_false, not_or] at hc
  obtain ⟨hcaret, hquote, hbacktick, hdash, hopen, hclose⟩ := hc
  rw [normalizeFrom.eq_5 _ _ _ _ hcaret, if_neg (by simp [hquote, hbacktick]),
    if_neg (fun h => hcaret h.1), if_neg (fun h => hdash h.1), if_neg hopen, if_neg hclose]

theorem normalizeFrom_open (d : Nat) (p : Option Char) (cs : List Char) :
    normalizeFrom none d p ('[' :: cs) = '[' :: normalizeFrom none (d + 1) (some '[') cs := by
  simp [normalizeFrom]

theorem normalizeFrom_close (d : Nat) (p : Option Char) (cs : List Char) :
    normalizeFrom none d p (']' :: cs) = ']' :: normalizeFrom none (d - 1) (some ']') cs := by
  simp [normalizeFrom]

/-- A character other than `^` becomes itself, or `:` when it is a `-` inside a set. -/
theorem normalizeFrom_plain {d : Nat} {p : Option Char} {c : Char} {cs : List Char}
    (hc : c ≠ '^') :
    ∃ t, normalizeFrom none d p (c :: cs) = (if c = '-' ∧ d > 0 then ':' else c) :: t := by
  rw [normalizeFrom.eq_5 _ _ _ _ hc]
  by_cases hq : c = '\'' ∨ c = '`'
  · rw [if_pos hq, if_neg (by rintro ⟨rfl, -⟩; simp at hq)]
    exact ⟨_, rfl⟩
  · rw [if_neg hq, if_neg (fun h => hc h.1)]
    by_cases hm : c = '-' ∧ d > 0
    · rw [if_pos hm, if_pos hm]
      exact ⟨_, rfl⟩
    · rw [if_neg hm, if_neg hm]
      split <;> try split
      all_goals exact ⟨_, rfl⟩

/-! ## §2 Where a kept `^` stands -/

/-- Outside quotations the output opens with `[` only where the input does, or where a `^[`
became `[!`. -/
theorem normalizeFrom_eq_open {d : Nat} {p : Option Char} {cs r : List Char}
    (h : normalizeFrom none d p cs = '[' :: r) : cs.head? = some '[' ∨ r.head? = some '!' := by
  match cs with
  | [] => simp [normalizeFrom_nil] at h
  | c :: cs =>
    by_cases hc : c = '^'
    · subst hc
      by_cases ht : ∃ rest, cs = '[' :: rest
      · obtain ⟨rest, rfl⟩ := ht
        rw [normalizeFrom.eq_3] at h
        split at h
        · exact .inr (by rw [← (List.cons.inj h).2]; rfl)
        · split at h <;> simp at h
      · rw [normalizeFrom.eq_4 _ _ _ (fun r hr => ht ⟨r, hr⟩)] at h
        split at h <;> simp at h
    · obtain ⟨t, ht⟩ := @normalizeFrom_plain d p c cs hc
      rw [ht] at h
      have hhead := (List.cons.inj h).1
      split at hhead
      · simp at hhead
      · exact .inl (by rw [hhead]; rfl)

/-- A `^` is kept when no set follows it at depth zero and it does not follow a `[` inside
a set. -/
theorem normalizeFrom_caret {d : Nat} {p : Option Char} {X : List Char}
    (hopen : ∀ r, X = '[' :: r → d = 0 → r.head? = some '!') (hprev : ¬(d > 0 ∧ p = some '[')) :
    normalizeFrom none d p ('^' :: X) = '^' :: normalizeFrom none d (some '^') X := by
  by_cases hX : ∃ r, X = '[' :: r
  · obtain ⟨r, rfl⟩ := hX
    rw [normalizeFrom.eq_3, if_neg, if_neg hprev]
    rintro ⟨h0, hr⟩
    exact hr (hopen r rfl h0)
  · rw [normalizeFrom.eq_4 _ _ _ (fun r hr => hX ⟨r, hr⟩), if_neg hprev]

/-! ## §3 The second pass -/

/-- A second pass over the output, from the same quotation and depth, copies it: the two
passes agree on every rule, provided the second does not see a `[` before it where the first
did not. The induction follows the first pass. -/
theorem normalizeFrom_normalizeFrom (q : Option Char) (d : Nat) (p p' : Option Char)
    (cs : List Char) (h : p' = some '[' → p = some '[') :
    normalizeFrom q d p' (normalizeFrom q d p cs) = normalizeFrom q d p cs := by
  fun_induction normalizeFrom q d p cs generalizing p' with
  | case1 => rfl
  | case2 q d prev c cs ih =>
    rw [normalizeFrom.eq_2, ih (some c) id]
  | case3 d prev rest hrw ih =>
    -- `^[` became `[!`: the second pass opens the same set and copies the `!`
    rw [normalizeFrom_open, normalizeFrom_inert (by decide), ih (some '!') (by simp)]
  | case4 d prev rest hA hB ih =>
    rw [normalizeFrom_inert (by decide), ih (some '!') (by simp)]
  | case5 d prev rest hA hB ih =>
    -- a kept `^` before `[`: at depth zero the set after it starts with `!`
    rw [normalizeFrom_caret, ih (some '^') id]
    · intro r hr h0
      rw [normalizeFrom_open] at hr
      obtain ⟨t, rfl⟩ : ∃ t, rest = '!' :: t := by
        cases rest with
        | nil => simp [h0] at hA
        | cons c t => simp [h0] at hA; exact ⟨t, by rw [hA]⟩
      rw [← (List.cons.inj hr).2, normalizeFrom_inert (by decide)]
      rfl
    · rintro ⟨hd, hp⟩
      exact hB ⟨hd, h hp⟩
  | case6 d prev tl htl hB ih =>
    rw [normalizeFrom_inert (by decide), ih (some '!') (by simp)]
  | case7 d prev tl htl hB ih =>
    -- a kept `^` before anything else: a `[` after it comes from a `^[` and has `!` after it
    rw [normalizeFrom_caret, ih (some '^') id]
    · intro r hr h0
      rcases normalizeFrom_eq_open hr with h' | h'
      · cases tl with
        | nil => simp at h'
        | cons c t => simp at h'; exact absurd (h' ▸ rfl) (htl t)
      · exact h'
    · rintro ⟨hd, hp⟩
      exact hB ⟨hd, h hp⟩
  | case8 d prev c cs hc hq ih =>
    -- a quotation opens in both passes
    rw [normalizeFrom.eq_5 _ _ _ _ hc, if_pos hq, ih (some c) id]
  | case9 d prev c cs hc _ hcaret => exact absurd hcaret.1 hc
  | case10 d prev c cs hc _ hm _ ih =>
    rw [normalizeFrom_inert (by decide), ih (some ':') (by simp)]
  | case11 d prev cs _ _ _ _ ih =>
    rw [normalizeFrom_open, ih (some '[') id]
  | case12 d prev cs _ _ _ _ _ ih =>
    rw [normalizeFrom_close, ih (some ']') id]
  | case13 d prev c cs hc hq _ hdash hopen hclose ih =>
    rw [normalizeFrom.eq_5 _ _ _ _ hc, if_neg hq, if_neg (fun h => hc h.1), if_neg hdash,
      if_neg hopen, if_neg hclose, ih (some c) id]

/-- Normalizing is idempotent, and a pattern compiles from its canonical text exactly as from
the text as written. -/
theorem normalize_idempotent (raw : String) :
    normalize (normalize raw) = normalize raw ∧
      Pattern.compile (normalize raw) = Pattern.compile raw := by
  have hnorm : normalize (normalize raw) = normalize raw := by
    unfold normalize
    rw [String.toList_ofList, normalizeFrom_normalizeFrom none 0 none none _ id]
  exact ⟨hnorm, by rw [Pattern.compile, hnorm, Pattern.compile]⟩

example : normalize "00 ^[00-1f] [^20] '^[-]'" = "00 [!00:1f] [!20] '^[-]'" := by decide

/-! ## §4 Rewriting in place -/

/-- A character as written and the one normalizing puts in its place: the same character, or one
of the rewrites of set syntax (`^` or `[` by `[` or `!`, `-` by `:`). -/
def Rewritten (c c' : Char) : Prop :=
  c' = c ∨ (c = '^' ∨ c = '[' ∨ c = '-') ∧ (c' = '[' ∨ c' = '!' ∨ c' = ':')

/-- The quotation each character is read in, tracked from the left: outside a quotation a `'`
or a backtick opens one, and the next same delimiter closes it. The opening delimiter is read
outside, the closing one inside. -/
def quotations : Option Char → List Char → List (Option Char)
  | _, [] => []
  | some q, c :: cs => some q :: quotations (if c = q then none else some q) cs
  | none, c :: cs => none :: quotations (if c = '\'' ∨ c = '`' then some c else none) cs

theorem quotations_plain {c : Char} (hc : c ≠ '\'' ∧ c ≠ '`') (cs : List Char) :
    quotations none (c :: cs) = none :: quotations none cs := by
  simp [quotations, hc.1, hc.2]

theorem quotations_caret (cs : List Char) :
    quotations none ('^' :: cs) = none :: quotations none cs :=
  quotations_plain (by decide) cs

/-- Every character is copied or rewritten where it stands; `^[` takes two places and gives two
characters. -/
theorem forall₂_rewritten (q : Option Char) (d : Nat) (p : Option Char) (cs : List Char) :
    List.Forall₂ Rewritten cs (normalizeFrom q d p cs) := by
  fun_induction normalizeFrom q d p cs with
  | case1 => exact .nil
  | case2 | case5 | case7 | case8 | case11 | case12 | case13 => exact .cons (.inl rfl) ‹_›
  | case3 => exact .cons (.inr ⟨by simp, by simp⟩) (.cons (.inr ⟨by simp, by simp⟩) ‹_›)
  | case4 | case6 => exact .cons (.inr ⟨by simp, by simp⟩) ‹_›
  | case9 _ _ c _ _ _ h => exact .cons (.inr ⟨.inl h.1, by simp⟩) ‹_›
  | case10 _ _ c _ _ _ _ h => exact .cons (.inr ⟨.inr (.inr h.1), by simp⟩) ‹_›

/-- Inside a quotation every character is copied: pairing each character read with the one put
in its place, the two agree wherever the quotation is open. -/
theorem forall₂_quoted (q : Option Char) (d : Nat) (p : Option Char) (cs : List Char) :
    List.Forall₂ (fun (s : Option Char) (cc : Char × Char) => s.isSome → cc.2 = cc.1)
      (quotations q cs) (cs.zip (normalizeFrom q d p cs)) := by
  fun_induction normalizeFrom q d p cs with
  | case1 => exact .nil
  | case2 => exact .cons (fun _ => rfl) ‹_›
  | case3 =>
    rw [quotations_caret, quotations_plain (by decide)]
    exact .cons (by simp) (.cons (by simp) ‹_›)
  | case4 | case6 =>
    rw [quotations_caret]
    exact .cons (by simp) ‹_›
  | case5 | case7 =>
    rw [quotations_caret]
    exact .cons (fun _ => rfl) ‹_›
  | case8 _ _ c _ _ hq =>
    -- a quotation opens after its delimiter, which is read outside
    rw [quotations, if_pos hq]
    exact .cons (fun _ => rfl) ‹_›
  | case9 _ _ c _ _ hq | case10 _ _ c _ _ hq | case13 _ _ c _ _ hq =>
    rw [quotations_plain (not_or.mp hq)]
    exact .cons (by simp) ‹_›
  | case11 | case12 =>
    rw [quotations_plain (by decide)]
    exact .cons (by simp) ‹_›

theorem normalize_forall₂_rewritten (raw : String) :
    List.Forall₂ Rewritten raw.toList (normalize raw).toList := by
  rw [normalize, String.toList_ofList]
  exact forall₂_rewritten none 0 none raw.toList

theorem normalize_quoted_copied (raw : String) {i : Nat} {q : Char}
    (h : (quotations none raw.toList)[i]? = some (some q)) :
    (normalize raw).toList[i]? = raw.toList[i]? := by
  rw [normalize, String.toList_ofList]
  have hq := forall₂_quoted none 0 none raw.toList
  obtain ⟨hi, hs⟩ := List.getElem?_eq_some_iff.mp h
  have hzip : i < (raw.toList.zip (normalizeFrom none 0 none raw.toList)).length :=
    hq.length_eq ▸ hi
  -- the pair at `i` is read inside a quotation, so its two characters agree
  have hcopy := hq.get hi hzip
  simp only [List.get_eq_getElem, hs, Option.isSome_some, List.getElem_zip, forall_const] at hcopy
  rw [List.length_zip] at hzip
  rw [List.getElem?_eq_getElem (by omega), List.getElem?_eq_getElem (by omega), hcopy]

end ContainerProbe.Canonical
