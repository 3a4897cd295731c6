import Mathlib
import ContainerProbe.Compound.Layout

/-!
# Following a sector chain

A chain is read by looking up each sector's successor in an allocation table until a marker
ends it. `Follows table s sectors` says this walk, started at `s`, passes through `sectors`
in order, finds each of them inside the table, and then meets `ENDOFCHAIN` or `FREESECT`.

The walk has no choice to make, so a sector determines the rest of its chain: a chain that
ends can never come back to a sector it has passed, and so it holds at most one sector per
table entry. `chain` stops after that many sectors; it therefore succeeds on exactly the
chains that end, and otherwise reports a loop or a sector outside the table.

## Main statements

* `Follows.nodup`, `Follows.length_le`: a chain that ends repeats no sector and is no longer
  than its table.
* `chain_follows_exactly`: `chain` returns the visited sectors exactly when the walk ends,
  and otherwise one of its two faults.
-/

namespace ContainerProbe.Compound

/-! ## §1 Chains that end -/

/-- Following `table` from `s` visits `sectors` in order, each inside the table, and then
meets a marker that ends the chain. -/
inductive Follows (table : Array Nat) : Nat → List Nat → Prop
  /-- The walk starts on a marker: the chain is empty. -/
  | stop {s : Nat} : isChainEnd s = true → Follows table s []
  /-- A sector inside the table is visited and the walk goes on from its successor. -/
  | step {s next : Nat} {rest : List Nat} : isChainEnd s = false → table[s]? = some next →
      Follows table next rest → Follows table s (s :: rest)

/-- The faults a chain walk reports, both invalid data: a walk longer than its table, and a
sector with no table entry. -/
def ChainFault (table : Array Nat) (e : IoError) : Prop :=
  e.message = "sector chain loops" ∨
    ∃ s, table.size ≤ s ∧ e.message = "sector " ++ toString s ++ " outside allocation table"

namespace Follows

variable {table : Array Nat}

theorem nil_iff {s : Nat} : Follows table s [] ↔ isChainEnd s = true := by
  constructor
  · rintro (h | _)
    exact h
  · exact .stop

theorem cons_iff {s x : Nat} {rest : List Nat} :
    Follows table s (x :: rest) ↔
      x = s ∧ isChainEnd s = false ∧ ∃ next, table[s]? = some next ∧ Follows table next rest := by
  constructor
  · rintro (_ | ⟨hs, hn, hr⟩)
    exact ⟨rfl, hs, _, hn, hr⟩
  · rintro ⟨rfl, hs, next, hn, hr⟩
    exact .step hs hn hr

/-- The walk is deterministic: a start sector has one chain. -/
theorem unique {s : Nat} {r₁ r₂ : List Nat} (h₁ : Follows table s r₁) (h₂ : Follows table s r₂) :
    r₁ = r₂ := by
  induction h₁ generalizing r₂ with
  | stop hs =>
    cases h₂ with
    | stop _ => rfl
    | step hs' _ _ => simp [hs] at hs'
  | step hs hn _ ih =>
    cases h₂ with
    | stop hs' => simp [hs] at hs'
    | step _ hn' hr' =>
      rw [hn] at hn'
      cases hn'
      rw [ih hr']

/-- From any sector of a chain the walk goes on along a chain no longer than the whole. -/
theorem exists_of_mem {s x : Nat} {r : List Nat} (h : Follows table s r) (hx : x ∈ r) :
    ∃ t, Follows table x t ∧ t.length ≤ r.length := by
  induction h with
  | stop _ => simp at hx
  | @step s _ rest hs hn hr ih =>
    rcases List.mem_cons.1 hx with rfl | hx
    · exact ⟨_, .step hs hn hr, Nat.le_refl _⟩
    · obtain ⟨t, ht, hlen⟩ := ih hx
      exact ⟨t, ht, by simp only [List.length_cons]; omega⟩

/-- A chain that ends never comes back to a sector it has passed: the chain from that
sector would be both the whole rest of the walk and a shorter part of it. -/
theorem nodup {s : Nat} {r : List Nat} (h : Follows table s r) : r.Nodup := by
  induction h with
  | stop _ => exact List.nodup_nil
  | @step s _ rest hs hn hr ih =>
    refine List.nodup_cons.2 ⟨fun hmem => ?_, ih⟩
    obtain ⟨t, ht, hlen⟩ := hr.exists_of_mem hmem
    have : t = s :: rest := ht.unique (.step hs hn hr)
    subst this
    simp only [List.length_cons] at hlen
    omega

theorem lt_size {s x : Nat} {r : List Nat} (h : Follows table s r) (hx : x ∈ r) :
    x < table.size := by
  induction h with
  | stop _ => simp at hx
  | step _ hn _ ih =>
    rcases List.mem_cons.1 hx with rfl | hx
    · exact (Array.getElem?_eq_some_iff.1 hn).1
    · exact ih hx

/-- A chain that ends holds at most one sector per table entry. -/
theorem length_le {s : Nat} {r : List Nat} (h : Follows table s r) : r.length ≤ table.size := by
  have hsub : r ⊆ List.range table.size := fun x hx => List.mem_range.2 (h.lt_size hx)
  simpa using (h.nodup.subperm hsub).length_le

end Follows

/-! ## §2 The bounded walk -/

/-- With `taken` sectors collected and fuel to spare past the table's size, the walk returns
exactly the chains that end within the table's bound. -/
theorem chainFrom_ok_iff (table : Array Nat) {fuel s taken : Nat} {acc r : List Nat}
    (hfuel : table.size < fuel + taken) (htaken : taken ≤ table.size) :
    chainFrom table fuel s taken acc = .ok r ↔
      ∃ rest, Follows table s rest ∧ taken + rest.length ≤ table.size ∧ r = acc.reverse ++ rest := by
  induction fuel generalizing s taken acc with
  | zero => omega
  | succ fuel ih =>
    rw [chainFrom]
    by_cases hs : isChainEnd s = true
    · -- the walk stops at once, on the empty chain
      simp only [hs, if_true, Except.ok.injEq]
      constructor
      · rintro rfl
        exact ⟨[], .stop hs, by simpa using htaken, by simp⟩
      · rintro ⟨rest, hrest, -, rfl⟩
        cases hrest with
        | stop _ => simp
        | step hs' _ _ => simp [hs] at hs'
    · simp only [hs, Bool.false_eq_true, if_false]
      cases hn : table[s]? with
      | none =>
        simp only [reduceCtorEq, false_iff, not_exists, not_and]
        intro rest hrest
        cases hrest with
        | stop hs' => exact absurd hs' hs
        | step _ hn' _ => simp [hn] at hn'
      | some next =>
        simp only
        split
        · -- a further sector would pass the table's bound
          simp only [reduceCtorEq, false_iff, not_exists, not_and]
          intro rest hrest hlen
          cases hrest with
          | stop hs' => exact absurd hs' hs
          | step _ _ _ => simp only [List.length_cons] at hlen; omega
        · rw [ih (by omega) (by omega)]
          constructor
          · rintro ⟨rest, hrest, hlen, rfl⟩
            refine ⟨s :: rest, .step (by simpa using hs) hn hrest, by simp; omega, by simp⟩
          · rintro ⟨rest, hrest, hlen, rfl⟩
            cases hrest with
            | stop hs' => exact absurd hs' hs
            | step _ hn' hrest' =>
              rw [hn] at hn'
              cases hn'
              exact ⟨_, hrest', by simp only [List.length_cons] at hlen; omega, by simp⟩

/-- Every failure of the bounded walk is one of its two faults. -/
theorem chainFrom_fault (table : Array Nat) {fuel s taken : Nat} {acc : List Nat} {e : IoError}
    (h : chainFrom table fuel s taken acc = .error e) : ChainFault table e := by
  induction fuel generalizing s taken acc with
  | zero =>
    cases h
    exact .inl rfl
  | succ fuel ih =>
    rw [chainFrom] at h
    split at h
    · cases h
    · split at h
      · -- the sector has no table entry
        rename_i hn
        cases h
        exact .inr ⟨s, Array.getElem?_eq_none_iff.1 hn, rfl⟩
      · split at h
        · cases h
          exact .inl rfl
        · exact ih h

theorem chain_ok_iff {table : Array Nat} {start : Nat} {r : List Nat} :
    chain table start = .ok r ↔ Follows table start r := by
  rw [chain, chainFrom_ok_iff table (by omega) (Nat.zero_le _)]
  constructor
  · rintro ⟨rest, h, -, rfl⟩
    simpa using h
  · intro h
    exact ⟨r, h, by simpa using h.length_le, by simp⟩

/-- `chain` follows a table exactly: it returns the visited sectors, in order, when the walk
stays inside the table, repeats no sector and meets a marker; such a chain is no longer than
the table; and when the walk does not end so, `chain` reports a loop or a sector outside the
table. -/
theorem chain_follows_exactly (table : Array Nat) (start : Nat) :
    (∀ r, chain table start = .ok r ↔ Follows table start r ∧ r.Nodup) ∧
    (∀ r, chain table start = .ok r → r.length ≤ table.size) ∧
    ((∀ r, ¬ (Follows table start r ∧ r.Nodup)) →
      ∃ e, chain table start = .error e ∧ ChainFault table e) := by
  refine ⟨fun r => ?_, fun r h => (chain_ok_iff.1 h).length_le, fun hnone => ?_⟩
  · rw [chain_ok_iff]
    exact ⟨fun h => ⟨h, h.nodup⟩, And.left⟩
  · cases hc : chain table start with
    | error e => exact ⟨e, rfl, chainFrom_fault table hc⟩
    | ok r =>
      have h := chain_ok_iff.1 hc
      exact absurd ⟨h, h.nodup⟩ (hnone r)

end ContainerProbe.Compound
