/-!
# Sizes

Lengths, offsets and gap bounds are machine sizes: natural numbers below `2 ^ 64`.
Three kinds of addition on them appear in the library, each where the format asks for it:

* `Size.satAdd` stops at the largest size (merging two gaps);
* `Size.checkedAdd` gives `none` past it (the longest span of a pattern);
* `Size.wrapAdd` wraps around (the shortest span of a pattern).

`Size.ofDigits?` reads a decimal size and refuses anything that does not fit.
-/

namespace ContainerProbe.Size

/-! ## §1 Bounds and additions -/

/-- Number of distinct sizes. -/
def modulus : Nat := Nat.pow 2 64

/-- The largest size. -/
def max : Nat := modulus - 1

/-- Addition that stops at `Size.max`. -/
def satAdd (a b : Nat) : Nat := Nat.min (a + b) max

/-- Addition that fails past `Size.max`. -/
def checkedAdd (a b : Nat) : Option Nat :=
  if a + b ≤ max then some (a + b) else none

/-- Addition modulo `2 ^ 64`. -/
def wrapAdd (a b : Nat) : Nat := (a + b) % modulus

/-- The sum of a list of numbers. -/
def total (xs : List Nat) : Nat := xs.foldr (fun a b => a + b) 0

@[simp] theorem total_nil : total [] = 0 := rfl

@[simp] theorem total_cons (x : Nat) (xs : List Nat) : total (x :: xs) = x + total xs := rfl

/-- Sum of a list of sizes, or `none` when it leaves the range. Summands are never negative,
so this is also the sum that fails as soon as a partial sum leaves the range. -/
def checkedSum (xs : List Nat) : Option Nat :=
  if total xs ≤ max then some (total xs) else none

/-- Sum of a list of sizes modulo `2 ^ 64`. -/
def wrapSum (xs : List Nat) : Nat := xs.foldl wrapAdd 0

/-! ## §2 Decimal text -/

/-- The value of an ASCII decimal digit. -/
def digitValue? (b : UInt8) : Option Nat :=
  if 48 ≤ b ∧ b ≤ 57 then some (b.toNat - 48) else none

/-- Reads a non-empty run of ASCII decimal digits as a size; `none` for any other byte,
for the empty run and for a value past `Size.max`. -/
def ofDigits? (digits : List UInt8) : Option Nat :=
  if digits.isEmpty then none
  else
    let value? := digits.foldl (fun acc b => acc.bind fun a => (digitValue? b).map (a * 10 + ·))
      (some 0)
    value?.bind fun v => if v ≤ max then some v else none

theorem satAdd_le_max (a b : Nat) : satAdd a b ≤ max := Nat.min_le_right _ _

theorem wrapAdd_lt_modulus (a b : Nat) : wrapAdd a b < modulus :=
  Nat.mod_lt _ (by decide)

end ContainerProbe.Size
