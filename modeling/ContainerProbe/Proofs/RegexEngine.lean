import Mathlib
import ContainerProbe.Proofs.GlobMatch
import ContainerProbe.EntryPath.Basic

/-!
# The documented meaning of glob expressions

A glob compiles to an anchored expression `^body$` whose body is the text of one construct
after another. What the regex crate documents about those constructs is gathered here as
`Regex.Documented`, one named law per construct: an escaped text matches itself, `.` any
character but a line feed, `[^/]` any character but `/`, `*` repeats, `(?:..)?` is optional,
and a group of alternatives matches one of them; with the law for a construct followed by
others. The path theorems take the engine as a parameter with these laws.

From the laws, an anchored body of constructs matches exactly the names the constructs match
(`Regex.Documented.accepts_body_iff`). The engine of `Regex.isMatch` has the laws
(`Regex.documented_isMatch`): it reads every body a glob compiles to back into its constructs
(`Regex.readFrom_body`), and its matcher decides the constructs' language.

## Main statements

* `Regex.Documented.accepts_body_iff`: under the laws, a body matches its constructs' language.
* `Regex.readFrom_body`: reading a compiled body gives back its constructs.
* `Regex.documented_isMatch`: the engine of `Regex.isMatch` has the documented laws.
-/

namespace ContainerProbe

/-- A construct a glob can compile to: a group holds at least one alternative. -/
def GlobToken.Lexed : GlobToken → Prop
  | .choice alts => alts ≠ []
  | _ => True

namespace Regex

/-! ## §1 The laws -/

/-- `Accepts isMatch body w`: the engine `isMatch` matches the name `w` against the anchored
expression `^body$`. -/
def Accepts (isMatch : String → String → Bool) (body w : List Char) : Prop :=
  isMatch (anchored body) (String.ofList w) = true

/-- The meaning the regex crate documents for the constructs of glob expressions, for an
engine `isMatch` that takes an expression's text and a name and says whether the expression
matches the name. -/
structure Documented (isMatch : String → String → Bool) : Prop where
  /-- `^$` matches the empty name only. -/
  empty : ∀ w, Accepts isMatch [] w ↔ w = []
  /-- A construct followed by others matches a name split in two, the construct's part
  first. -/
  concat : ∀ (t : GlobToken) (ts : List GlobToken), t.Lexed → (∀ u ∈ ts, u.Lexed) → ∀ w,
    Accepts isMatch (t.regex ++ Glob.regexBody ts) w ↔
      ∃ u v, w = u ++ v ∧ Accepts isMatch t.regex u ∧ Accepts isMatch (Glob.regexBody ts) v
  /-- An escaped text matches itself only. -/
  escaped : ∀ text w, Accepts isMatch (escape text) w ↔ w = text
  /-- `.*`: `.` is any character but a line feed, and `*` repeats it. -/
  dotStar : ∀ w, Accepts isMatch ".*".toList w ↔ '\n' ∉ w
  /-- `(?:.*/)?`: nothing, or a run without a line feed and then `/`. -/
  optionalDirs : ∀ w,
    Accepts isMatch "(?:.*/)?".toList w ↔ w = [] ∨ ∃ u, w = u ++ ['/'] ∧ '\n' ∉ u
  /-- `[^/]*`: a run of characters other than `/`. -/
  notSlashRun : ∀ w, Accepts isMatch "[^/]*".toList w ↔ '/' ∉ w
  /-- `[^/]`: one character other than `/`. -/
  notSlash : ∀ w, Accepts isMatch "[^/]".toList w ↔ ∃ c, w = [c] ∧ c ≠ '/'
  /-- A group of escaped alternatives, `(?:a|b|..)`, matches exactly one of them. -/
  alternation : ∀ alts : List (List Char), alts ≠ [] → ∀ w,
    Accepts isMatch ("(?:".toList ++ ['|'].intercalate (alts.map escape) ++ [')']) w ↔ w ∈ alts

/-! ## §2 What the laws give -/

namespace Documented

variable {isMatch : String → String → Bool}

/-- Under the laws, the text of one construct matches the runs the construct stands for. -/
theorem accepts_token_iff (hre : Documented isMatch) {t : GlobToken} (ht : t.Lexed)
    (w : List Char) : Accepts isMatch t.regex w ↔ t.Matches w := by
  cases t with
  | anyRun => exact hre.dotStar w
  | dirPrefix => exact hre.optionalDirs w
  | segmentRun => exact hre.notSlashRun w
  | oneChar => exact hre.notSlash w
  | choice alts => exact hre.alternation alts ht w
  | char c => exact hre.escaped [c] w

/-- Under the laws, the body of constructs matches exactly the names the constructs match. -/
theorem accepts_body_iff (hre : Documented isMatch) {ts : List GlobToken}
    (hts : ∀ t ∈ ts, t.Lexed) (w : List Char) :
    Accepts isMatch (Glob.regexBody ts) w ↔ GlobToken.MatchesAll ts w := by
  induction ts generalizing w with
  | nil => exact hre.empty w
  | cons t ts ih =>
    obtain ⟨ht, hrest⟩ := List.forall_mem_cons.1 hts
    rw [Glob.regexBody_cons, hre.concat t ts ht hrest]
    simp only [GlobToken.MatchesAll, hre.accepts_token_iff ht, ih hrest]

end Documented

/-! ## §3 Reading an expression back -/

/-- A character the syntax gives no meaning to is none of its meta characters. -/
theorem ne_of_isMeta {c x : Char} (hc : isMeta c = false) (hx : isMeta x = true) : c ≠ x := by
  rintro rfl
  simp [hx] at hc

/-- A character the syntax gives no meaning to stands for itself. -/
theorem readFrom_plain {c : Char} (hc : isMeta c = false) (rest : List Char) :
    readFrom none (c :: rest) = (readFrom none rest).map (.char c :: ·) := by
  -- `c` opens none of the other constructs, which all start with a meta character
  rw [readFrom.eq_9 c rest (ne_of_isMeta hc rfl) (fun _ _ h _ => ne_of_isMeta hc rfl h)
    (fun _ h _ => ne_of_isMeta hc rfl h) (fun _ h _ => ne_of_isMeta hc rfl h)
    (fun _ h _ => ne_of_isMeta hc rfl h) (fun _ h _ => ne_of_isMeta hc rfl h)
    (fun _ h _ => ne_of_isMeta hc rfl h)]
  simp [hc]

/-- In a group, a character the syntax gives no meaning to is part of the alternative. -/
theorem readFrom_group_plain {c : Char} (hc : isMeta c = false) (done : List (List Char))
    (cur rest : List Char) :
    readFrom (some (done, cur)) (c :: rest) = readFrom (some (done, cur ++ [c])) rest := by
  rw [readFrom.eq_14 done cur c rest (ne_of_isMeta hc rfl) (ne_of_isMeta hc rfl)
    (fun _ _ h _ => ne_of_isMeta hc rfl h)]
  simp [hc]

/-- In a group, an escaped text is read into the alternative being read. -/
theorem readFrom_escape_group (text : List Char) (done : List (List Char)) (cur rest : List Char) :
    readFrom (some (done, cur)) (escape text ++ rest) =
      readFrom (some (done, cur ++ text)) rest := by
  induction text generalizing cur with
  | nil => simp
  | cons c text ih =>
    cases hc : isMeta c with
    | false =>
      rw [escape_cons, if_neg (by simp [hc]), List.singleton_append, List.cons_append,
        readFrom_group_plain hc, ih, List.append_assoc, List.singleton_append]
    | true =>
      simp only [escape_cons, hc, if_true, List.cons_append, List.nil_append, readFrom.eq_13]
      rw [ih, List.append_assoc, List.singleton_append]

/-- The escaped alternatives of a group, up to its `)`, are read as one choice of all of
them. -/
theorem readFrom_alternatives {alts : List (List Char)} (halts : alts ≠ [])
    (done : List (List Char)) (rest : List Char) :
    readFrom (some (done, [])) (['|'].intercalate (alts.map escape) ++ ')' :: rest) =
      (readFrom none rest).map (.choice (done ++ alts) :: ·) := by
  induction alts generalizing done with
  | nil => exact absurd rfl halts
  | cons a alts ih =>
    cases alts with
    | nil =>
      -- the last alternative, closed by `)`
      simp only [List.map_cons, List.map_nil, List.intercalate_singleton, readFrom_escape_group,
        List.nil_append, readFrom.eq_11]
    | cons b alts =>
      -- `|` closes the first alternative and opens the next
      simp only [List.map_cons]
      have hnext := ih (List.cons_ne_nil b alts) (done ++ [a])
      rw [List.map_cons] at hnext
      rw [List.intercalate_cons_cons, List.append_assoc, List.append_assoc,
        readFrom_escape_group, List.nil_append, List.singleton_append, readFrom.eq_12, hnext,
        List.append_assoc, List.singleton_append]

/-- An escaped text followed by `rest` does not start with a meta character other than the
backslash, unless `rest` does and the text is empty. -/
theorem head?_escape_append {x : Char} (hx : isMeta x = true) (hx' : x ≠ '\\')
    (text : List Char) {rest : List Char} (hr : rest.head? ≠ some x) :
    (escape text ++ rest).head? ≠ some x := by
  cases text with
  | nil => simpa using hr
  | cons c text =>
    cases hc : isMeta c with
    | false =>
      simp only [escape_cons, hc, Bool.false_eq_true, if_false, List.cons_append,
        List.head?_cons, ne_eq, Option.some.injEq]
      rintro rfl
      simp [hc] at hx
    | true => simpa [hc] using Ne.symm hx'

/-- The text between a group's `(?:` and what follows its `)` does not start with `.`, so it is
not read as `(?:.*/)?`. -/
theorem head?_alternatives {alts : List (List Char)} (halts : alts ≠ []) (rest : List Char) :
    (['|'].intercalate (alts.map escape) ++ ')' :: rest).head? ≠ some '.' := by
  obtain ⟨a, alts, rfl⟩ := List.exists_cons_of_ne_nil halts
  cases alts with
  | nil =>
    have hr : (')' :: rest).head? ≠ some '.' := by simp
    rw [List.map_singleton, List.intercalate_singleton]
    exact head?_escape_append (x := '.') rfl (by decide) a hr
  | cons b alts =>
    simp only [List.map_cons]
    rw [List.intercalate_cons_cons, List.append_assoc, List.append_assoc]
    have hr : (['|'] ++ (['|'].intercalate (escape b :: alts.map escape) ++ ')' :: rest)).head? ≠
        some '.' := by simp
    exact head?_escape_append (x := '.') rfl (by decide) a hr

/-- No construct's text starts with `*`, which would extend a `[^/]` before it. -/
theorem head?_regex_append (t : GlobToken) (rest : List Char) :
    (t.regex ++ rest).head? ≠ some '*' := by
  cases t with
  | char c =>
    cases hc : isMeta c with
    | false =>
      -- a plain character, and `*` is a meta character
      simp only [GlobToken.regex_char, escape_cons, hc, escape_nil, List.append_nil,
        Bool.false_eq_true, if_false, List.cons_append, List.nil_append, List.head?_cons, ne_eq,
        Option.some.injEq]
      rintro rfl
      exact absurd hc (by decide)
    | true => simp [hc]
  | _ => simp

/-- The text of a construct, followed by text that does not start with `*`, is read as that
construct and then the rest. -/
theorem readFrom_token {t : GlobToken} (ht : t.Lexed) {rest : List Char}
    (hr : rest.head? ≠ some '*') :
    readFrom none (t.regex ++ rest) = (readFrom none rest).map (t :: ·) := by
  cases t with
  | anyRun | dirPrefix | segmentRun => simp [readFrom]
  | oneChar =>
    -- `[^/]` is not read as `[^/]*`, since `rest` does not start with `*`
    rw [GlobToken.regex_oneChar]
    exact readFrom.eq_8 rest (fun r h => hr (by simp [h]))
  | choice alts =>
    -- `(?:` opens a group, not `(?:.*/)?`, since an escaped alternative has no bare `.`
    have hgroup : ∀ r, ['|'].intercalate (alts.map escape) ++ ')' :: rest ≠
        '.' :: '*' :: '/' :: ')' :: '?' :: r := fun r h =>
      head?_alternatives ht rest (by simp [h])
    rw [GlobToken.regex_choice, List.cons_append, List.cons_append, List.cons_append,
      List.append_assoc, List.singleton_append, readFrom.eq_6 _ hgroup,
      readFrom_alternatives ht [] rest, List.nil_append]
  | char c =>
    cases hc : isMeta c with
    | false => simpa [hc] using readFrom_plain hc rest
    | true => simp [hc, readFrom.eq_3]

/-- Reading the body a sequence of constructs compiles to, up to its `$`, gives the constructs
back. -/
theorem readFrom_body {ts : List GlobToken} (hts : ∀ t ∈ ts, t.Lexed) :
    readFrom none (Glob.regexBody ts ++ ['$']) = some ts := by
  induction ts with
  | nil => exact readFrom_end
  | cons t ts ih =>
    obtain ⟨ht, hrest⟩ := List.forall_mem_cons.1 hts
    -- what follows starts with a construct's text or the final `$`, never with `*`
    have hr : (Glob.regexBody ts ++ ['$']).head? ≠ some '*' := by
      cases ts with
      | nil => simp
      | cons u us =>
        rw [Glob.regexBody_cons, List.append_assoc]
        exact head?_regex_append u _
    rw [Glob.regexBody_cons, List.append_assoc, readFrom_token ht hr, ih hrest]
    rfl

/-! ## §4 The engine has the documented meaning -/

/-- The engine runs the anchored body of constructs as the constructs themselves. -/
theorem isMatch_anchored {ts : List GlobToken} (hts : ∀ t ∈ ts, t.Lexed) (name : String) :
    isMatch (anchored (Glob.regexBody ts)) name = accepts ts name := by
  simp [isMatch, anchored, readFrom_body hts]

/-- The engine matches an anchored body of constructs against exactly the names the constructs
match. -/
theorem accepts_isMatch_body {ts : List GlobToken} (hts : ∀ t ∈ ts, t.Lexed) (w : List Char) :
    Accepts isMatch (Glob.regexBody ts) w ↔ GlobToken.MatchesAll ts w := by
  rw [Accepts, isMatch_anchored hts, accepts_iff, String.toList_ofList]

/-- The engine matches the text of one construct against exactly the runs the construct
stands for. -/
theorem accepts_isMatch_token {t : GlobToken} (ht : t.Lexed) (w : List Char) :
    Accepts isMatch t.regex w ↔ t.Matches w := by
  have h : Accepts isMatch (Glob.regexBody [t]) w ↔ GlobToken.MatchesAll [t] w :=
    accepts_isMatch_body (by simpa using ht) w
  rwa [Glob.regexBody_cons, Glob.regexBody_nil, List.append_nil,
    GlobToken.matchesAll_singleton_iff] at h

/-- Plain characters compile to the escaped text. -/
theorem regexBody_map_char (text : List Char) :
    Glob.regexBody (text.map GlobToken.char) = escape text := by
  induction text with
  | nil => rfl
  | cons c text ih => simp [ih]

/-- The engine of `Regex.isMatch` has the documented meaning of every construct. -/
theorem documented_isMatch : Documented isMatch where
  empty w := accepts_isMatch_body (List.forall_mem_nil _) w
  concat t ts ht hts w := by
    have hall : ∀ u ∈ t :: ts, u.Lexed := List.forall_mem_cons.2 ⟨ht, hts⟩
    rw [← Glob.regexBody_cons, accepts_isMatch_body hall]
    simp only [accepts_isMatch_token ht, accepts_isMatch_body hts, GlobToken.MatchesAll]
  escaped text w := by
    rw [← regexBody_map_char, accepts_isMatch_body (by simp [GlobToken.Lexed]),
      GlobToken.matchesAll_map_char_iff]
  dotStar w := accepts_isMatch_token (t := .anyRun) trivial w
  optionalDirs w := accepts_isMatch_token (t := .dirPrefix) trivial w
  notSlashRun w := accepts_isMatch_token (t := .segmentRun) trivial w
  notSlash w := accepts_isMatch_token (t := .oneChar) trivial w
  alternation alts halts w := accepts_isMatch_token (t := .choice alts) halts w

end Regex

end ContainerProbe
