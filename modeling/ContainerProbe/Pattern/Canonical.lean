/-!
# Canonical expressions

Older signature files write byte sets the way regular-expression dialects do: `[00-7f]` for
a range and `^[00]` or `[^00]` for an inverted set. The canonical grammar writes `[00:7f]`
and `[!00]`. `Canonical.normalize` turns the former into the latter and copies everything
else, including all text inside `'..'` or `` `..` `` quotations.

Every substitution replaces one character by one character (`^[` becomes `[!`), so a position
in the canonical text is the same position in the text as written.
-/

namespace ContainerProbe.Canonical

/-- The canonical form of the remaining characters, given the open quotation (its delimiter), the
number of open byte sets and the character before them. -/
def normalizeFrom : Option Char → Nat → Option Char → List Char → List Char
  | _, _, _, [] => []
  | some q, depth, _, c :: cs =>
    c :: normalizeFrom (if c = q then none else some q) depth (some c) cs
  | none, depth, prev, '^' :: tl =>
    match tl with
    | '[' :: rest =>
      if depth = 0 ∧ rest.head? ≠ some '!' then
        '[' :: '!' :: normalizeFrom none (depth + 1) (some '[') rest
      else if depth > 0 ∧ prev = some '[' then
        '!' :: normalizeFrom none depth (some '^') ('[' :: rest)
      else
        '^' :: normalizeFrom none depth (some '^') ('[' :: rest)
    | tl =>
      if depth > 0 ∧ prev = some '[' then '!' :: normalizeFrom none depth (some '^') tl
      else '^' :: normalizeFrom none depth (some '^') tl
  | none, depth, prev, c :: cs =>
    if c = '\'' ∨ c = '`' then c :: normalizeFrom (some c) depth (some c) cs
    else if c = '^' ∧ depth > 0 ∧ prev = some '[' then '!' :: normalizeFrom none depth (some c) cs
    else if c = '-' ∧ depth > 0 then ':' :: normalizeFrom none depth (some c) cs
    else if c = '[' then c :: normalizeFrom none (depth + 1) (some c) cs
    else if c = ']' then c :: normalizeFrom none (depth - 1) (some c) cs
    else c :: normalizeFrom none depth (some c) cs
termination_by structural _ _ _ cs => cs

/-- Nothing is left to normalize at the end of the text. -/
theorem normalizeFrom_nil (q : Option Char) (depth : Nat) (prev : Option Char) :
    normalizeFrom q depth prev [] = [] := by
  -- through the equation lemmas, so that they are made once, here
  simp [normalizeFrom]

/-- The canonical form of a pattern expression. -/
def normalize (raw : String) : String := String.ofList (normalizeFrom none 0 none raw.toList)

/-- Normalizing keeps the number of characters. -/
theorem length_normalizeFrom (q : Option Char) (depth : Nat) (prev : Option Char)
    (cs : List Char) : (normalizeFrom q depth prev cs).length = cs.length := by
  fun_induction normalizeFrom q depth prev cs <;> simp_all

end ContainerProbe.Canonical
