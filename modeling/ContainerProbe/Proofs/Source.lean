import Mathlib
import ContainerProbe.Proofs.Window

/-!
# Sources that answer like a window

The matcher sees an entry only through the four requests of `ByteAccess`. A set of source
states `Inv` is a view of the window of limit `limit` over the bytes `D` when every request
from a state of `Inv` leads to a state of `Inv`, and every answer such a state gives is the
answer the window over `D` gives. The answer may also be a read failure: a view promises
nothing about failures, only that whatever it does answer is right.

A pattern evaluated against a view then leaves a state of the view, and when it gives a
verdict, that verdict is the one the window gives. A view that never fails gives a verdict
every time.

## Main statements

* `Pattern.evaluate_keeps`: a pattern's requests keep what every request keeps.
* `Pattern.evaluate_of_view`: a verdict over a view is the window's verdict.
* `Pattern.evaluate_ok_of_view`: over a view that never fails there is a verdict.
-/

namespace ContainerProbe

/-- Every request from a state of `Inv` leads to a state of `Inv`. -/
structure Keeps {σ : Type} [ByteAccess σ] (Inv : σ → Prop) : Prop where
  head : ∀ s n, Inv s → Inv (ByteAccess.head s n).2
  contents : ∀ s, Inv s → Inv (ByteAccess.contents s).2
  tail : ∀ s, Inv s → Inv (ByteAccess.tail s).2
  isTruncated : ∀ s, Inv s → Inv (ByteAccess.isTruncated s).2

/-- Source states `Inv` answer every request as the window of `limit` over `D` does, or fail. -/
structure WindowView {σ : Type} [ByteAccess σ] (Inv : σ → Prop) (D : ByteArray)
    (limit : Option Nat) : Prop extends Keeps Inv where
  headAnswer : ∀ s n, Inv s → ∀ x, (ByteAccess.head s n).1 = .ok x →
    (ByteAccess.head (Window.make D limit) n).1 = .ok x
  contentsAnswer : ∀ s, Inv s → ∀ x, (ByteAccess.contents s).1 = .ok x →
    (ByteAccess.contents (Window.make D limit)).1 = .ok x
  tailAnswer : ∀ s, Inv s → ∀ x, (ByteAccess.tail s).1 = .ok x →
    (ByteAccess.tail (Window.make D limit)).1 = .ok x
  truncatedAnswer : ∀ s, Inv s → ∀ v, (ByteAccess.isTruncated s).1 = .ok v →
    (ByteAccess.isTruncated (Window.make D limit)).1 = .ok v

/-- Source states `Inv` answer every request without a read failure. -/
structure NeverFails {σ : Type} [ByteAccess σ] (Inv : σ → Prop) : Prop where
  head : ∀ s n, Inv s → ∃ x, (ByteAccess.head s n).1 = .ok x
  contents : ∀ s, Inv s → ∃ x, (ByteAccess.contents s).1 = .ok x
  tail : ∀ s, Inv s → ∃ x, (ByteAccess.tail s).1 = .ok x
  isTruncated : ∀ s, Inv s → ∃ v, (ByteAccess.isTruncated s).1 = .ok v

theorem Except.map_eq_ok {ε α β : Type} {f : α → β} {r : Except ε α} {b : β}
    (h : r.map f = .ok b) : ∃ a, r = .ok a ∧ f a = b := by
  cases r with
  | error e => cases h
  | ok a =>
    cases h
    exact ⟨a, rfl, rfl⟩

/-- A verdict computed from a request's answer alone is the window's verdict when the answer
is the window's answer. -/
theorem map_of_view {α β : Type} {f : α → β} {r wreq : Except IoError α}
    (hreq : ∀ a, r = .ok a → wreq = .ok a) {b : β} (h : r.map f = .ok b) : wreq.map f = .ok b := by
  obtain ⟨a, ha, rfl⟩ := Except.map_eq_ok h
  rw [hreq a ha]
  rfl

section View

variable {σ : Type} [ByteAccess σ] {Inv : σ → Prop} {D : ByteArray} {limit : Option Nat}

/-- A pattern evaluated from a state of `Inv` leaves a state of `Inv`, when every request
does. -/
theorem Pattern.evaluate_keeps (hk : Keeps Inv) (p : Pattern) (starts : Option (List Nat))
    {s : σ} (hs : Inv s) : Inv (p.evaluate starts s).2 := by
  cases hp : p.anchor with
  | atStart =>
    cases hmax : p.maxLength with
    | some m =>
      simp only [Pattern.evaluate, hp, hmax]
      exact hk.head s m hs
    | none =>
      simp only [Pattern.evaluate, hp, hmax]
      exact hk.contents s hs
  | atEnd =>
    simp only [Pattern.evaluate, hp]
    exact hk.tail s hs
  | exact =>
    simp only [Pattern.evaluate, hp]
    have hinv := hk.isTruncated s hs
    cases hr : ByteAccess.isTruncated s with
    | mk r s1 =>
      rw [hr] at hinv
      cases r with
      | error e => exact hinv
      | ok v =>
        cases v with
        | true => exact hinv
        | false => exact hk.contents s1 hinv
  | floating =>
    simp only [Pattern.evaluate, hp]
    exact hk.contents s hs

/-- A pattern evaluated against a view stays in the view, and a verdict it gives is the
window's verdict. -/
theorem Pattern.evaluate_of_view (hv : WindowView Inv D limit) (p : Pattern)
    (starts : Option (List Nat)) {s : σ} (hs : Inv s) :
    Inv (p.evaluate starts s).2 ∧ ∀ b, (p.evaluate starts s).1 = .ok b →
      (p.evaluate starts (Window.make D limit)).1 = .ok b := by
  refine ⟨Pattern.evaluate_keeps hv.toKeeps p starts hs, ?_⟩
  cases hp : p.anchor with
  | atStart =>
    cases hmax : p.maxLength with
    | some m =>
      simp only [Pattern.evaluate, hp, hmax]
      exact fun b h => map_of_view (hv.headAnswer s m hs) h
    | none =>
      simp only [Pattern.evaluate, hp, hmax]
      exact fun b h => map_of_view (hv.contentsAnswer s hs) h
  | atEnd =>
    simp only [Pattern.evaluate, hp]
    exact fun b h => map_of_view (hv.tailAnswer s hs) h
  | exact =>
    simp only [Pattern.evaluate, hp]
    have hinv := hv.isTruncated s hs
    have htrunc := hv.truncatedAnswer s hs
    -- the verdict follows the truncation answer, then the contents
    cases hr : ByteAccess.isTruncated s with
    | mk r s1 =>
      rw [hr] at hinv htrunc
      cases r with
      | error e => exact fun b h => by cases h
      | ok v =>
        have hw : ByteAccess.isTruncated (Window.make D limit) = (.ok v, Window.make D limit) :=
          Prod.ext (htrunc v rfl) rfl
        rw [hw]
        cases v with
        | true => exact fun b h => h
        | false => exact fun b h => map_of_view (hv.contentsAnswer s1 hinv) h
  | floating =>
    simp only [Pattern.evaluate, hp]
    exact fun b h => map_of_view (hv.contentsAnswer s hs) h

/-- Over a view that never fails, a pattern always gives a verdict. -/
theorem Pattern.evaluate_ok_of_view (hk : Keeps Inv) (hf : NeverFails Inv)
    (p : Pattern) (starts : Option (List Nat)) {s : σ} (hs : Inv s) :
    ∃ b, (p.evaluate starts s).1 = .ok b := by
  have hmap : ∀ {α : Type} {f : α → Bool} {r : Except IoError α},
      (∃ a, r = .ok a) → ∃ b, r.map f = .ok b := by
    rintro α f r ⟨a, rfl⟩
    exact ⟨f a, rfl⟩
  cases hp : p.anchor with
  | atStart =>
    cases hmax : p.maxLength with
    | some m =>
      simp only [Pattern.evaluate, hp, hmax]
      exact hmap (hf.head s m hs)
    | none =>
      simp only [Pattern.evaluate, hp, hmax]
      exact hmap (hf.contents s hs)
  | atEnd =>
    simp only [Pattern.evaluate, hp]
    exact hmap (hf.tail s hs)
  | exact =>
    simp only [Pattern.evaluate, hp]
    have hinv := hk.isTruncated s hs
    obtain ⟨v, hv'⟩ := hf.isTruncated s hs
    cases hr : ByteAccess.isTruncated s with
    | mk r s1 =>
      rw [hr] at hinv hv'
      cases hv'
      cases v with
      | true => exact ⟨false, rfl⟩
      | false => exact hmap (hf.contents s1 hinv)
  | floating =>
    simp only [Pattern.evaluate, hp]
    exact hmap (hf.contents s hs)

end View

end ContainerProbe
