import Mathlib
import ContainerProbe.Proofs.RegexEngine
import ContainerProbe.Proofs.Source

/-!
# Declared paths match exactly their glob language

The glob text of a declared path spells a language of entry names: `*` stands for a run
without `/`, `?` for one character other than `/`, `**` for a run without a line feed, `**/`
for nothing or such a run ending in `/`, `{a,b}` for one of its comma-separated alternatives
taken literally, `{containerFileName}` for the container's file name without its extension,
and every other character for itself. `Glob.Spells` states this language on the text itself,
read from the left: a `*` next to another `*` is part of `**`, and `**` in front of `/` is
part of `**/`; a brace reaches to the first `}` after it.

The line feed is left out of `**` because the expression a glob is compiled to reads `**` as
`.*`, and `.` stands for every character but a line feed.

The lexer turns the text into tokens whose runs are the same language
(`Glob.matchesAll_iff_spells`), and an engine with the documented meaning of the constructs
matches the expression the tokens compile to against exactly the names they match
(`Regex.Documented.accepts_body_iff`). A declared path is read once, and resolved for each
container: a path that mentions the template and has no other glob syntax becomes an exact
name, with the container's stem substituted for the template. That name is the one word of the
path's language (`Glob.spells_iff_eq_substitute`).

## Main statements

* `Glob.matchesAll_iff_spells`: the lexer's tokens stand for the text's language.
* `Glob.isMatch_toRegex_iff`: an engine with the documented meaning runs the expression a glob
  compiles to as the glob's language.
* `EntryPath.resolved_accepts_iff_spells`: a declared path, resolved for any container, accepts
  exactly the entry names its text spells, and nothing when it needs an unknown container
  name.
-/

namespace ContainerProbe

namespace Glob

/-! ## §1 The language of a glob text -/

/-- `Spells stem text name`: the glob text `text` spells the entry name `name`, `stem` being the
container's file name without its extension, when known. -/
inductive Spells (stem : Option String) : List Char → List Char → Prop where
  | nil : Spells stem [] []
  /-- `**/` standing for nothing. -/
  | dirPrefixEmpty {rest n : List Char} :
      Spells stem rest n → Spells stem ('*' :: '*' :: '/' :: rest) n
  /-- `**/` standing for a run without a line feed, then `/`. -/
  | dirPrefix {rest w n : List Char} : '\n' ∉ w →
      Spells stem rest n → Spells stem ('*' :: '*' :: '/' :: rest) (w ++ '/' :: n)
  /-- `**` not in front of `/`, standing for a run without a line feed. -/
  | anyRun {rest w n : List Char} : rest.head? ≠ some '/' → '\n' ∉ w →
      Spells stem rest n → Spells stem ('*' :: '*' :: rest) (w ++ n)
  /-- `*` not in front of `*`, standing for a run without `/`. -/
  | segmentRun {rest w n : List Char} : rest.head? ≠ some '*' → '/' ∉ w →
      Spells stem rest n → Spells stem ('*' :: rest) (w ++ n)
  /-- `?` standing for one character other than `/`. -/
  | oneChar {rest n : List Char} {c : Char} : c ≠ '/' →
      Spells stem rest n → Spells stem ('?' :: rest) (c :: n)
  /-- A brace standing for one of the alternatives of its body. -/
  | choice {body rest alt n : List Char} : '}' ∉ body → body ≠ containerFileName →
      alt ∈ body.splitOn ',' →
      Spells stem rest n → Spells stem ('{' :: (body ++ '}' :: rest)) (alt ++ n)
  /-- The template standing for the container's stem. -/
  | template {rest n : List Char} {s : String} : stem = some s →
      Spells stem rest n → Spells stem ('{' :: (containerFileName ++ '}' :: rest)) (s.toList ++ n)
  /-- Any other character standing for itself. -/
  | char {rest n : List Char} {c : Char} : c ≠ '*' → c ≠ '?' → c ≠ '{' →
      Spells stem rest n → Spells stem (c :: rest) (c :: n)

/-- The closing brace of a body is the first `}` after its opening brace. -/
theorem brace_body_unique {b₁ b₂ r₁ r₂ : List Char} (h₁ : '}' ∉ b₁) (h₂ : '}' ∉ b₂)
    (h : b₁ ++ '}' :: r₁ = b₂ ++ '}' :: r₂) : b₁ = b₂ ∧ r₁ = r₂ := by
  induction b₁ generalizing b₂ with
  | nil =>
    cases b₂ with
    | nil => simpa using h
    | cons d b₂ =>
      simp only [List.nil_append, List.cons_append, List.cons.injEq] at h
      simp [← h.1] at h₂
  | cons c b₁ ih =>
    cases b₂ with
    | nil =>
      simp only [List.nil_append, List.cons_append, List.cons.injEq] at h
      simp [h.1] at h₁
    | cons d b₂ =>
      simp only [List.cons_append, List.cons.injEq] at h
      obtain ⟨rfl, h⟩ := h
      have hb := ih (fun hm => h₁ (.tail _ hm)) (fun hm => h₂ (.tail _ hm)) h
      exact ⟨by rw [hb.1], hb.2⟩

theorem containerFileName_no_close : '}' ∉ containerFileName := by decide

variable {stem : Option String} {rest n : List Char}

/-! ## §2 Reading a text from the left -/

theorem spells_nil_iff : Spells stem [] n ↔ n = [] := by
  constructor
  · intro h
    generalize ht : ([] : List Char) = t at h
    cases h <;> simp_all
  · rintro rfl
    exact .nil

theorem spells_dirPrefix_iff :
    Spells stem ('*' :: '*' :: '/' :: rest) n ↔
      ∃ w m, n = w ++ m ∧ GlobToken.dirPrefix.Matches w ∧ Spells stem rest m := by
  constructor
  · intro h
    generalize ht : ('*' :: '*' :: '/' :: rest) = t at h
    cases h with
    | dirPrefixEmpty h =>
      simp only [List.cons.injEq, true_and] at ht
      subst ht
      exact ⟨[], _, rfl, .inl rfl, h⟩
    | dirPrefix hw h =>
      simp only [List.cons.injEq, true_and] at ht
      subst ht
      exact ⟨_, _, (List.append_cons _ _ _).symm ▸ rfl, .inr ⟨_, rfl, hw⟩, h⟩
    | anyRun hr =>
      simp only [List.cons.injEq, true_and] at ht
      subst ht
      simp at hr
    | segmentRun hr =>
      simp only [List.cons.injEq, true_and] at ht
      subst ht
      simp at hr
    | char hc => exact absurd (List.cons.inj ht).1.symm hc
    | _ => simp at ht
  · rintro ⟨w, m, rfl, rfl | ⟨u, rfl, hu⟩, h⟩
    · exact .dirPrefixEmpty h
    · rw [List.append_assoc, List.singleton_append]
      exact .dirPrefix hu h

theorem spells_anyRun_iff (hr : rest.head? ≠ some '/') :
    Spells stem ('*' :: '*' :: rest) n ↔
      ∃ w m, n = w ++ m ∧ GlobToken.anyRun.Matches w ∧ Spells stem rest m := by
  constructor
  · intro h
    generalize ht : ('*' :: '*' :: rest) = t at h
    cases h with
    | anyRun _ hw h =>
      simp only [List.cons.injEq, true_and] at ht
      subst ht
      exact ⟨_, _, rfl, hw, h⟩
    | dirPrefixEmpty | dirPrefix =>
      simp only [List.cons.injEq, true_and] at ht
      subst ht
      simp at hr
    | segmentRun hr' =>
      simp only [List.cons.injEq, true_and] at ht
      subst ht
      simp at hr'
    | char hc => exact absurd (List.cons.inj ht).1.symm hc
    | _ => simp at ht
  · rintro ⟨w, m, rfl, hw, h⟩
    exact .anyRun hr hw h

theorem spells_segmentRun_iff (hr : rest.head? ≠ some '*') :
    Spells stem ('*' :: rest) n ↔
      ∃ w m, n = w ++ m ∧ GlobToken.segmentRun.Matches w ∧ Spells stem rest m := by
  constructor
  · intro h
    generalize ht : ('*' :: rest) = t at h
    cases h with
    | segmentRun _ hw h =>
      simp only [List.cons.injEq, true_and] at ht
      subst ht
      exact ⟨_, _, rfl, hw, h⟩
    | dirPrefixEmpty | dirPrefix | anyRun =>
      simp only [List.cons.injEq, true_and] at ht
      subst ht
      simp at hr
    | char hc => exact absurd (List.cons.inj ht).1.symm hc
    | _ => simp at ht
  · rintro ⟨w, m, rfl, hw, h⟩
    exact .segmentRun hr hw h

theorem spells_oneChar_iff :
    Spells stem ('?' :: rest) n ↔
      ∃ w m, n = w ++ m ∧ GlobToken.oneChar.Matches w ∧ Spells stem rest m := by
  constructor
  · intro h
    generalize ht : ('?' :: rest) = t at h
    cases h with
    | oneChar hc h =>
      simp only [List.cons.injEq, true_and] at ht
      subst ht
      exact ⟨[_], _, rfl, ⟨_, rfl, hc⟩, h⟩
    | char _ hc => exact absurd (List.cons.inj ht).1.symm hc
    | _ => simp at ht
  · rintro ⟨w, m, rfl, ⟨c, rfl, hc⟩, h⟩
    exact .oneChar hc h

theorem spells_char_iff {c : Char} (h₁ : c ≠ '*') (h₂ : c ≠ '?') (h₃ : c ≠ '{') :
    Spells stem (c :: rest) n ↔
      ∃ w m, n = w ++ m ∧ (GlobToken.char c).Matches w ∧ Spells stem rest m := by
  constructor
  · intro h
    generalize ht : (c :: rest) = t at h
    cases h with
    | char _ _ _ h =>
      simp only [List.cons.injEq] at ht
      obtain ⟨rfl, rfl⟩ := ht
      exact ⟨[_], _, rfl, rfl, h⟩
    | _ => simp_all
  · rintro ⟨w, m, rfl, rfl, h⟩
    exact .char h₁ h₂ h₃ h

theorem spells_choice_iff {body : List Char} (hbody : '}' ∉ body)
    (hne : body ≠ containerFileName) :
    Spells stem ('{' :: (body ++ '}' :: rest)) n ↔
      ∃ w m, n = w ++ m ∧ (GlobToken.choice (body.splitOn ',')).Matches w ∧
        Spells stem rest m := by
  constructor
  · intro h
    generalize ht : ('{' :: (body ++ '}' :: rest)) = t at h
    cases h with
    | choice hbody' _ halt h =>
      simp only [List.cons.injEq, true_and] at ht
      obtain ⟨rfl, rfl⟩ := brace_body_unique hbody hbody' ht
      exact ⟨_, _, rfl, halt, h⟩
    | template =>
      simp only [List.cons.injEq, true_and] at ht
      exact absurd (brace_body_unique hbody containerFileName_no_close ht).1 hne
    | char _ _ hc => exact absurd (List.cons.inj ht).1.symm hc
    | _ => simp at ht
  · rintro ⟨w, m, rfl, hw, h⟩
    exact .choice hbody hne hw h

theorem spells_template_iff {s : String} (hs : stem = some s) :
    Spells stem ('{' :: (containerFileName ++ '}' :: rest)) n ↔
      ∃ w m, n = w ++ m ∧ w = s.toList ∧ Spells stem rest m := by
  constructor
  · intro h
    generalize ht : ('{' :: (containerFileName ++ '}' :: rest)) = t at h
    cases h with
    | template hs' h =>
      simp only [List.cons.injEq, true_and] at ht
      obtain ⟨-, rfl⟩ := brace_body_unique containerFileName_no_close containerFileName_no_close ht
      cases hs.symm.trans hs'
      exact ⟨_, _, rfl, rfl, h⟩
    | choice hbody hne =>
      simp only [List.cons.injEq, true_and] at ht
      exact absurd (brace_body_unique containerFileName_no_close hbody ht).1.symm hne
    | char _ _ hc => exact absurd (List.cons.inj ht).1.symm hc
    | _ => simp at ht
  · rintro ⟨w, m, rfl, rfl, h⟩
    exact .template hs h

/-! ## §3 The lexer reads the text's language into tokens -/

/-- The text the lexer has still to read: the rest of the glob, behind the opening brace and the
body read so far while a brace is open. -/
def pendingText : Option (List Char) → List Char → List Char
  | none, cs => cs
  | some body, cs => '{' :: (body ++ cs)

theorem no_open_brace : ∀ body, (none : Option (List Char)) = some body → '}' ∉ body :=
  fun _ hb => nomatch hb

/-- One token in front of others: when the token's text spells a run of the token and then what
the rest spells, the tokens match what the whole text spells. -/
theorem matchesAll_cons_iff {t : GlobToken} {ts : List GlobToken} {text : List Char}
    (hts : ∀ v, GlobToken.MatchesAll ts v ↔ Spells stem rest v)
    (htext : Spells stem text n ↔ ∃ w m, n = w ++ m ∧ t.Matches w ∧ Spells stem rest m) :
    GlobToken.MatchesAll (t :: ts) n ↔ Spells stem text n := by
  simp only [GlobToken.MatchesAll, htext, hts]

/-- What a brace emits in front of other tokens: when the brace's text spells a run of what it
emits and then what the rest spells, the tokens match what the whole text spells. -/
theorem matchesAll_append_iff_spells {es ts : List GlobToken} {P : List Char → Prop}
    {text : List Char} (hes : ∀ w, GlobToken.MatchesAll es w ↔ P w)
    (hts : ∀ v, GlobToken.MatchesAll ts v ↔ Spells stem rest v)
    (htext : Spells stem text n ↔ ∃ w m, n = w ++ m ∧ P w ∧ Spells stem rest m) :
    GlobToken.MatchesAll (es ++ ts) n ↔ Spells stem text n := by
  simp only [GlobToken.matchesAll_append_iff, hes, hts, htext]

theorem head?_ne_of_forall_ne {x : Char} {cs : List Char} (h : ∀ r, cs = x :: r → False) :
    cs.head? ≠ some x := by
  cases cs with
  | nil => simp
  | cons c r =>
    rintro hc
    cases Option.some.inj hc
    exact h r rfl

/-- The lexer reads the text it has still to read into tokens that stand for the text's
language, the body of an open brace holding no `}`. -/
theorem matchesAll_iff_spells {glob : String} {brace : Option (List Char)} {cs : List Char}
    {ts : List GlobToken} (hbrace : ∀ body, brace = some body → '}' ∉ body)
    (h : tokensFrom glob stem brace cs = .ok ts) (n : List Char) :
    GlobToken.MatchesAll ts n ↔ Spells stem (pendingText brace cs) n := by
  fun_induction tokensFrom glob stem brace cs generalizing ts n with
  | case1 | case2 | case3 => cases h
  | case4 body rest emitted es ts' hrest hemitted =>
    rename_i ih
    -- a closed brace: the template's characters or a choice, then the rest of the glob
    cases h
    have hbody := hbrace body rfl
    have hts := ih no_open_brace hrest
    simp only [emitted] at hemitted
    split at hemitted
    · rename_i hcfn
      subst hcfn
      cases stem with
      | none => cases hemitted
      | some s =>
        cases hemitted
        exact matchesAll_append_iff_spells (fun _ => GlobToken.matchesAll_map_char_iff) hts
          (spells_template_iff rfl)
    · rename_i hne
      cases hemitted
      exact matchesAll_append_iff_spells (fun _ => GlobToken.matchesAll_singleton_iff) hts
        (spells_choice_iff hbody hne)
  | case5 body c rest hc ih =>
    -- the body of an open brace grows by one character other than `}`
    have hnext : '}' ∉ body ++ [c] := by simp [hbrace body rfl, Ne.symm hc]
    rw [ih (by rintro _ ⟨⟩; exact hnext) h n]
    simp [pendingText]
  | case6 =>
    cases h
    exact spells_nil_iff.symm
  | case7 rest ih =>
    obtain ⟨ts, hts, rfl⟩ := Except.map_eq_ok h
    exact matchesAll_cons_iff (ih no_open_brace hts) spells_dirPrefix_iff
  | case8 rest hr ih =>
    obtain ⟨ts, hts, rfl⟩ := Except.map_eq_ok h
    exact matchesAll_cons_iff (ih no_open_brace hts)
      (spells_anyRun_iff (head?_ne_of_forall_ne hr))
  | case9 rest _ hr ih =>
    obtain ⟨ts, hts, rfl⟩ := Except.map_eq_ok h
    exact matchesAll_cons_iff (ih no_open_brace hts)
      (spells_segmentRun_iff (head?_ne_of_forall_ne hr))
  | case10 rest ih =>
    obtain ⟨ts, hts, rfl⟩ := Except.map_eq_ok h
    exact matchesAll_cons_iff (ih no_open_brace hts) spells_oneChar_iff
  | case11 rest ih =>
    -- an opening brace: its body starts empty
    exact ih (by rintro _ ⟨⟩; simp) h n
  | case12 c rest _ _ h₁ h₂ h₃ ih =>
    obtain ⟨ts, hts, rfl⟩ := Except.map_eq_ok h
    exact matchesAll_cons_iff (ih no_open_brace hts) (spells_char_iff h₁ h₂ h₃)

/-- Whether a glob can be read does not depend on the container's stem, as long as there is
one. -/
theorem tokensFrom_ok_of_some {glob s : String} (s' : String) {brace : Option (List Char)}
    {cs : List Char} {ts : List GlobToken} (h : tokensFrom glob (some s) brace cs = .ok ts) :
    ∃ ts', tokensFrom glob (some s') brace cs = .ok ts' := by
  fun_induction tokensFrom glob (some s) brace cs generalizing ts with
  | case1 | case2 | case3 => cases h
  | case4 body rest emitted es ts' hrest hemitted =>
    rename_i ih
    obtain ⟨ts'', h''⟩ := ih hrest
    rw [tokensFrom, if_pos rfl, h'']
    split <;> exact ⟨_, rfl⟩
  | case5 body c rest hc ih =>
    rw [tokensFrom, if_neg hc]
    exact ih h
  | case6 => exact ⟨[], rfl⟩
  | case7 rest ih | case10 rest ih =>
    obtain ⟨ts', h', -⟩ := Except.map_eq_ok h
    obtain ⟨ts'', h''⟩ := ih h'
    exact ⟨_, by rw [tokensFrom, h'']; rfl⟩
  | case8 rest hr ih =>
    obtain ⟨ts', h', -⟩ := Except.map_eq_ok h
    obtain ⟨ts'', h''⟩ := ih h'
    refine ⟨.anyRun :: ts'', ?_⟩
    rw [tokensFrom, h'']
    · rfl
    · exact hr
  | case9 rest hr₁ hr₂ ih =>
    obtain ⟨ts', h', -⟩ := Except.map_eq_ok h
    obtain ⟨ts'', h''⟩ := ih h'
    refine ⟨.segmentRun :: ts'', ?_⟩
    rw [tokensFrom, h'']
    · rfl
    · exact hr₁
    · exact hr₂
  | case11 rest ih =>
    exact ih h
  | case12 c rest h₄ h₃ h₂ h₁ h₀ ih =>
    obtain ⟨ts', h', -⟩ := Except.map_eq_ok h
    obtain ⟨ts'', h''⟩ := ih h'
    exact ⟨_, by rw [tokensFrom.eq_10 _ _ _ _ h₄ h₃ h₂ h₁ h₀, h'']; rfl⟩

/-- The tokens of a glob stand for the glob's language. -/
theorem matchesAll_tokens_iff {glob : String} {ts : List GlobToken}
    (h : tokens glob stem = .ok ts) (n : List Char) :
    GlobToken.MatchesAll ts n ↔ Spells stem glob.toList n :=
  matchesAll_iff_spells no_open_brace h n

/-- Every group the lexer emits has an alternative: a brace body splits into at least one. -/
theorem tokensFrom_lexed {glob : String} {brace : Option (List Char)} {cs : List Char}
    {ts : List GlobToken} (h : tokensFrom glob stem brace cs = .ok ts) : ∀ t ∈ ts, t.Lexed := by
  fun_induction tokensFrom glob stem brace cs generalizing ts with
  | case1 | case2 | case3 => cases h
  | case4 body rest emitted es ts' hrest hemitted =>
    rename_i ih
    cases h
    simp only [emitted] at hemitted
    refine List.forall_mem_append.2 ⟨?_, ih hrest⟩
    split at hemitted
    · -- the template's characters
      cases stem with
      | none => cases hemitted
      | some s =>
        cases hemitted
        simp [GlobToken.Lexed]
    · cases hemitted
      simp [GlobToken.Lexed, List.splitOn_ne_nil ',' body]
  | case5 | case11 => rename_i ih; exact ih h
  | case6 =>
    cases h
    simp
  | case7 rest ih | case8 rest _ ih | case9 rest _ _ ih | case10 rest ih
    | case12 c rest _ _ _ _ _ ih =>
    obtain ⟨ts, hts, rfl⟩ := Except.map_eq_ok h
    exact List.forall_mem_cons.2 ⟨trivial, ih hts⟩

/-- Whether a glob compiles does not depend on the container's stem, as long as there is
one. -/
theorem toRegex_ok_of_some {glob s re : String} (s' : String)
    (h : toRegex glob (some s) = .ok re) : ∃ re', toRegex glob (some s') = .ok re' := by
  obtain ⟨ts, hts, -⟩ := Except.map_eq_ok h
  obtain ⟨ts', hts'⟩ := tokensFrom_ok_of_some s' hts
  exact ⟨_, by rw [toRegex, tokens, hts']; rfl⟩

/-- An engine with the documented meaning of the constructs matches the expression a glob
compiles to against exactly the names of the glob's language. -/
theorem isMatch_toRegex_iff {isMatch : String → String → Bool} (hre : Regex.Documented isMatch)
    {glob re : String} (h : toRegex glob stem = .ok re) (name : String) :
    isMatch re name = true ↔ Spells stem glob.toList name.toList := by
  obtain ⟨ts, hts, rfl⟩ := Except.map_eq_ok h
  have hbody := hre.accepts_body_iff (tokensFrom_lexed hts) name.toList
  rw [Regex.Accepts, String.ofList_toList] at hbody
  rw [hbody, matchesAll_tokens_iff hts]

/-! ## §4 Texts without glob syntax, and the template -/

/-- A character that is no glob syntax. -/
def IsPlain (c : Char) : Prop := ¬(c = '*' ∨ c = '?' ∨ c = '{')

/-- A character that is no glob syntax spells itself, in front of what the rest spells. -/
theorem spells_cons_iff_eq {c : Char} {t : List Char} (hc : IsPlain c)
    (hrest : ∀ m, Spells stem rest m ↔ m = t) :
    Spells stem (c :: rest) n ↔ n = c :: t := by
  simp only [IsPlain, not_or] at hc
  rw [spells_char_iff hc.1 hc.2.1 hc.2.2]
  constructor
  · rintro ⟨w, m, rfl, rfl, hm⟩
    rw [(hrest m).1 hm]
    rfl
  · rintro rfl
    exact ⟨[c], t, rfl, rfl, (hrest t).2 rfl⟩

/-- A text without glob syntax spells itself and nothing else. -/
theorem spells_iff_eq_of_plain {text : List Char} (h : ∀ c ∈ text, IsPlain c) :
    Spells stem text n ↔ n = text := by
  induction text generalizing n with
  | nil => exact spells_nil_iff
  | cons c rest ih =>
    exact spells_cons_iff_eq (h c List.mem_cons_self)
      (fun m => ih (fun d hd => h d (List.mem_cons_of_mem c hd)))

end Glob

theorem isGlobText_eq_false_iff {path : String} :
    isGlobText path = false ↔ ∀ c ∈ path.toList, Glob.IsPlain c := by
  simp [isGlobText, Glob.IsPlain]

theorem closesTemplate_iff {rest : List Char} :
    closesTemplate rest = true ↔ ∃ r, rest = Glob.containerFileName ++ '}' :: r := by
  rw [closesTemplate, List.isPrefixOf_iff_prefix]
  constructor
  · rintro ⟨r, rfl⟩
    exact ⟨r, by simp⟩
  · rintro ⟨r, rfl⟩
    exact ⟨r, by simp⟩

theorem closesTemplate_template (r : List Char) :
    closesTemplate (Glob.containerFileName ++ '}' :: r) = true :=
  closesTemplate_iff.2 ⟨r, rfl⟩

theorem mentionsTemplate_append (xs : List Char) {ys : List Char}
    (h : mentionsTemplate ys = true) : mentionsTemplate (xs ++ ys) = true := by
  induction xs with
  | nil => exact h
  | cons x xs ih => simp [mentionsTemplate, ih]

theorem mentionsTemplate_template (r : List Char) :
    mentionsTemplate ('{' :: (Glob.containerFileName ++ '}' :: r)) = true := by
  simp [mentionsTemplate, closesTemplate_template]

/-- A text that mentions the template holds a `{`, so it is glob syntax. -/
theorem mem_of_mentionsTemplate {text : List Char} (h : mentionsTemplate text = true) :
    '{' ∈ text := by
  induction text with
  | nil => simp [mentionsTemplate] at h
  | cons c rest ih =>
    simp only [mentionsTemplate, Bool.or_eq_true, Bool.and_eq_true, beq_iff_eq] at h
    rcases h with ⟨rfl, -⟩ | h
    · exact List.mem_cons_self
    · exact List.mem_cons_of_mem c (ih h)

theorem drop_template (r : List Char) :
    (Glob.containerFileName ++ '}' :: r).drop (Glob.containerFileName.length + 1) = r := by
  simp

theorem substituteTemplate_template (stem r : List Char) :
    substituteTemplate stem ('{' :: (Glob.containerFileName ++ '}' :: r)) =
      stem ++ substituteTemplate stem r := by
  rw [substituteTemplate, if_pos ⟨rfl, closesTemplate_template r⟩, drop_template]

theorem substituteTemplate_cons {stem rest : List Char} {c : Char}
    (h : ¬(c = '{' ∧ closesTemplate rest = true)) :
    substituteTemplate stem (c :: rest) = c :: substituteTemplate stem rest := by
  rw [substituteTemplate, if_neg h]

namespace Glob

variable {stem : Option String} {n : List Char}

/-- Where a text does not mention the template, what it spells does not depend on the
container's stem. -/
theorem Spells.of_mentionsTemplate_eq_false {text : List Char} (h : Spells stem text n)
    (ht : mentionsTemplate text = false) (stem' : Option String) : Spells stem' text n := by
  -- the rest of a text that does not mention the template does not mention it either
  have hrest : ∀ xs {rest}, mentionsTemplate (xs ++ rest) = false → mentionsTemplate rest = false :=
    fun xs _ hxs => Bool.eq_false_iff.2 fun hr => by simp [mentionsTemplate_append xs hr] at hxs
  induction h with
  | nil => exact .nil
  | dirPrefixEmpty _ ih => exact .dirPrefixEmpty (ih (hrest ['*', '*', '/'] ht))
  | dirPrefix hw _ ih => exact .dirPrefix hw (ih (hrest ['*', '*', '/'] ht))
  | anyRun hr hw _ ih => exact .anyRun hr hw (ih (hrest ['*', '*'] ht))
  | segmentRun hr hw _ ih => exact .segmentRun hr hw (ih (hrest ['*'] ht))
  | oneChar hc _ ih => exact .oneChar hc (ih (hrest ['?'] ht))
  | @choice body _ _ _ hbody hne halt _ ih =>
    exact .choice hbody hne halt (ih (hrest ('{' :: body ++ ['}']) (by simpa using ht)))
  | template _ _ _ => simp [mentionsTemplate_template] at ht
  | char h₁ h₂ h₃ _ ih => exact .char h₁ h₂ h₃ (ih (hrest [_] ht))

/-- With the template read as the stem and no other glob syntax, a text spells exactly the
text with the stem substituted for each template. -/
theorem spells_iff_eq_substitute {s : String} {text : List Char}
    (h : ∀ c ∈ substituteTemplate [] text, IsPlain c) :
    Spells (some s) text n ↔ n = substituteTemplate s.toList text := by
  fun_induction substituteTemplate s.toList text generalizing n with
  | case1 => exact spells_nil_iff
  | case2 c rest hc ih =>
    obtain ⟨rfl, hcl⟩ := hc
    obtain ⟨r, rfl⟩ := closesTemplate_iff.1 hcl
    rw [substituteTemplate_template, List.nil_append] at h
    rw [drop_template] at ih ⊢
    rw [spells_template_iff rfl]
    constructor
    · rintro ⟨w, m, rfl, rfl, hm⟩
      rw [(ih h).1 hm]
    · rintro rfl
      exact ⟨_, _, rfl, rfl, (ih h).2 rfl⟩
  | case3 c rest hc ih =>
    rw [substituteTemplate_cons hc] at h
    exact spells_cons_iff_eq (h c List.mem_cons_self)
      (fun m => ih (fun d hd => h d (List.mem_cons_of_mem c hd)))

end Glob


/-! ## §5 Declared paths -/

namespace EntryPath

/-- What reading a declared path gives: a templated path when it mentions the template and can
be compiled; otherwise a glob with its expression when it has glob syntax and can be compiled;
otherwise the exact name. The path is taken without its trailing `/`. -/
theorem parse_eq_ok {raw : String} {P : EntryPath} (h : parse raw = .ok P) :
    (mentionsTemplate (trimEntryName raw).toList = true ∧
        (∃ re, Glob.toRegex (trimEntryName raw) (some "x") = .ok re) ∧
        P = .templated (trimEntryName raw)
          (isGlobText (String.ofList (substituteTemplate [] (trimEntryName raw).toList)))) ∨
      (mentionsTemplate (trimEntryName raw).toList = false ∧
        isGlobText (trimEntryName raw) = true ∧
        ∃ re, Glob.toRegex (trimEntryName raw) none = .ok re ∧ P = .glob (trimEntryName raw) re) ∨
      (mentionsTemplate (trimEntryName raw).toList = false ∧
        isGlobText (trimEntryName raw) = false ∧ P = .exact (trimEntryName raw)) := by
  simp only [parse] at h
  split at h
  · cases h
  split at h
  · rename_i hmt
    split at h
    · cases h
    · rename_i re hre
      cases h
      exact .inl ⟨hmt, ⟨re, hre⟩, rfl⟩
  rename_i hmt
  replace hmt := Bool.eq_false_iff.2 hmt
  split at h
  · rename_i hg
    obtain ⟨re, hre, rfl⟩ := Except.map_eq_ok h
    exact .inr (.inl ⟨hmt, hg, re, hre, rfl⟩)
  · rename_i hg
    cases h
    exact .inr (.inr ⟨hmt, Bool.eq_false_iff.2 hg, rfl⟩)

/-- A path without glob syntax spells itself, and is accepted by itself only. -/
theorem accepts_exact (isMatch : String → String → Bool) {path : String}
    (hg : isGlobText path = false) (c : Option String) (n : String) :
    (((exact path).bind c).acceptsWith isMatch n = true ↔ n = path) ∧
      (Glob.Spells (c.map containerStem) path.toList n.toList ↔ n = path) := by
  rw [Glob.spells_iff_eq_of_plain (isGlobText_eq_false_iff.1 hg), String.toList_inj]
  simp only [bind, ResolvedPath.acceptsWith, beq_iff_eq, iff_self, and_true]
  exact eq_comm

section Engine

variable {isMatch : String → String → Bool}

/-- A templated path matches nothing without the container's name; with it, a path without
other glob syntax is the exact name with the stem substituted, and any other is compiled with
the stem for the template. Either way an engine with the documented meaning accepts the names
its text spells. -/
theorem accepts_templated (hre : Regex.Documented isMatch) {path re : String}
    (hx : Glob.toRegex path (some "x") = .ok re) (c : Option String) (n : String) :
    ((templated path (isGlobText (String.ofList (substituteTemplate [] path.toList)))).bind
        c).acceptsWith isMatch n = true ↔
      c.isSome = true ∧ Glob.Spells (c.map containerStem) path.toList n.toList := by
  cases c with
  | none => simp [bind, ResolvedPath.acceptsWith]
  | some name =>
    simp only [bind, Option.isSome_some, Option.map_some, true_and]
    cases hw : isGlobText (String.ofList (substituteTemplate [] path.toList)) with
    | false =>
      have hplain := isGlobText_eq_false_iff.1 hw
      rw [String.toList_ofList] at hplain
      simp only [Bool.false_eq_true, if_false, ResolvedPath.acceptsWith, beq_iff_eq]
      rw [Glob.spells_iff_eq_substitute hplain, ← String.toList_inj, String.toList_ofList,
        eq_comm]
    | true =>
      -- the glob compiled with a placeholder stem, so it compiles with the container's too
      obtain ⟨re', hre'⟩ := Glob.toRegex_ok_of_some (containerStem name) hx
      simp only [if_true, hre', ResolvedPath.acceptsWith]
      exact Glob.isMatch_toRegex_iff hre hre' n

/-- A glob that does not mention the template accepts the names its text spells, whatever the
container. -/
theorem accepts_glob (hre : Regex.Documented isMatch) {path re : String}
    (hmt : mentionsTemplate path.toList = false) (hx : Glob.toRegex path none = .ok re)
    (c : Option String) (n : String) :
    ((glob path re).bind c).acceptsWith isMatch n = true ↔
      Glob.Spells (c.map containerStem) path.toList n.toList := by
  rw [bind, ResolvedPath.acceptsWith, Glob.isMatch_toRegex_iff hre hx]
  exact ⟨fun h => h.of_mentionsTemplate_eq_false hmt _,
    fun h => h.of_mentionsTemplate_eq_false hmt _⟩

/-- A declared path, resolved for a container with any name or with none, accepts exactly the
entry names its text spells once trailing `/` are removed, when its glob's expression is run by
an engine with the documented meaning of the constructs: `*` a run without `/`, `?` one
character other than `/`, `**` a run without a line feed, `**/` nothing or such a run ending in
`/`, a brace one of its comma-separated alternatives, the template the container's stem, and
any other character itself. A path that mentions the template accepts nothing when the
container's name is unknown, and a path without glob syntax accepts only itself. -/
theorem resolved_accepts_iff_spells (hre : Regex.Documented isMatch) {raw : String}
    {P : EntryPath} (hP : parse raw = .ok P) (c : Option String) (n : String) :
    ((P.bind c).acceptsWith isMatch n = true ↔
        (mentionsTemplate (trimEntryName raw).toList = true → c.isSome = true) ∧
          Glob.Spells (c.map containerStem) (trimEntryName raw).toList n.toList) ∧
      (isGlobText (trimEntryName raw) = false →
        ((P.bind c).acceptsWith isMatch n = true ↔ n = trimEntryName raw)) := by
  rcases parse_eq_ok hP with ⟨hmt, ⟨re, hx⟩, rfl⟩ | ⟨hmt, hg, re, hx, rfl⟩ | ⟨hmt, hg, rfl⟩
  · refine ⟨?_, fun hg => ?_⟩
    · rw [accepts_templated hre hx, hmt]
      simp
    · -- the template's `{` is glob syntax
      have hbrace := mem_of_mentionsTemplate hmt
      simp [isGlobText_eq_false_iff, Glob.IsPlain] at hg
      exact absurd (hg _ hbrace) (by simp)
  · refine ⟨?_, fun hg' => by simp [hg] at hg'⟩
    rw [accepts_glob hre hmt hx, hmt]
    simp
  · have hexact := accepts_exact isMatch hg c n
    refine ⟨?_, fun _ => hexact.1⟩
    rw [hexact.1, hexact.2, hmt]
    simp

end Engine

/-- A glob for the entries of one directory: `word/*.xml/` is read as a glob without its
trailing `/`, compiled to `^word/[^/]*\.xml$`, and spells `word/document.xml`. -/
theorem resolved_accepts_iff_spells_glob :
    Regex.Documented Regex.isMatch ∧
      parse "word/*.xml/" = .ok (.glob "word/*.xml" "^word/[^/]*\\.xml$") ∧
      Glob.Spells none "word/*.xml".toList "word/document.xml".toList := by
  have hP : parse "word/*.xml/" = .ok (.glob "word/*.xml" "^word/[^/]*\\.xml$") := by
    decide +kernel
  have hacc : ((glob "word/*.xml" "^word/[^/]*\\.xml$").bind none).accepts
      "word/document.xml" = true := by
    decide +kernel
  have htrim : trimEntryName "word/*.xml/" = "word/*.xml" := by decide +kernel
  have h := ((resolved_accepts_iff_spells Regex.documented_isMatch hP none
    "word/document.xml").1.1 hacc).2
  rw [htrim] at h
  exact ⟨Regex.documented_isMatch, hP, h⟩

/-- `**` compiles to `.*`, whose `.` stands for every character but a line feed: the glob `**`
does not accept a name that is one line feed, with this engine or any with the documented
meaning. -/
theorem anyRun_refuses_line_feed :
    parse "**" = .ok (.glob "**" "^.*$") ∧
      ((glob "**" "^.*$").bind none).accepts "\n" = false ∧
      ∀ isMatch, Regex.Documented isMatch → isMatch "^.*$" "\n" = false := by
  refine ⟨by decide +kernel, by decide +kernel, fun isMatch hre => ?_⟩
  have h := hre.dotStar ['\n']
  simp only [List.mem_singleton, not_true_eq_false, iff_false] at h
  exact Bool.eq_false_iff.2 h

end EntryPath

end ContainerProbe
