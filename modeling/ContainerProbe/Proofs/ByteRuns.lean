import Mathlib
import ContainerProbe.Prefilter

/-!
# Runs of a byte string

The bytes between two offsets of a byte string, read as a list (`between`), and how runs split
and join; and what the literal test `bytesAt` decides about the run at an offset.

## Main statements

* `between_eq_append_iff`: a run splits into two parts exactly at an offset between its ends.
* `bytesAt_iff`: the literal test reads exactly the run of the literal's length.
-/

namespace ContainerProbe

/-! ## §1 Runs of a byte string -/

/-- The bytes of `d` from offset `s` up to offset `q`. -/
def between (d : ByteArray) (s q : Nat) : List UInt8 := (d.data.toList.drop s).take (q - s)

theorem ByteArray.getElem?_eq_toList (d : ByteArray) (i : Nat) :
    d[i]? = d.data.toList[i]? := by
  simp [getElem?_def, ByteArray.getElem_eq_getElem_data]

theorem length_between (d : ByteArray) {s q : Nat} (hq : q ≤ d.size) :
    (between d s q).length = q - s := by
  simp only [between, List.length_take, List.length_drop, Array.length_toList,
    ByteArray.size_data]
  omega

theorem getElem?_between (d : ByteArray) (s q i : Nat) :
    (between d s q)[i]? = if s + i < q then d[s + i]? else none := by
  simp only [between, List.getElem?_take, List.getElem?_drop, ByteArray.getElem?_eq_toList]
  by_cases h : s + i < q
  · simp [h, show i < q - s by omega]
  · simp [h, show ¬ i < q - s by omega]

theorem between_append (d : ByteArray) {s t q : Nat} (hst : s ≤ t) (htq : t ≤ q) :
    between d s t ++ between d t q = between d s q := by
  simp only [between]
  rw [show q - s = (t - s) + (q - t) by omega, List.take_add, List.drop_drop,
    show s + (t - s) = t by omega]

/-- A run splits into two parts exactly at an offset between its ends. -/
theorem between_eq_append_iff (d : ByteArray) {s q : Nat} (hsq : s ≤ q) (hq : q ≤ d.size)
    {xs ys : List UInt8} :
    between d s q = xs ++ ys ↔
      ∃ t, s ≤ t ∧ t ≤ q ∧ xs = between d s t ∧ ys = between d t q := by
  constructor
  · intro h
    have hlen : xs.length ≤ q - s := by
      have := congrArg List.length h
      simp only [length_between d hq, List.length_append] at this
      omega
    refine ⟨s + xs.length, by omega, by omega, ?_⟩
    rw [← between_append d (t := s + xs.length) (by omega) (by omega)] at h
    have hx : (between d s (s + xs.length)).length = xs.length := by
      rw [length_between d (by omega)]
      omega
    exact List.append_inj h.symm hx.symm
  · rintro ⟨t, hst, htq, rfl, rfl⟩
    exact (between_append d hst htq).symm

/-! ## §2 Bytes at an offset -/

/-- `bytesAt` tests exactly that the run of the literal's length at `p` is the literal. -/
theorem bytesAt_iff (d : ByteArray) (p : Nat) (bytes : List UInt8) :
    bytesAt d p bytes = true ↔
      p + bytes.length ≤ d.size ∧ between d p (p + bytes.length) = bytes := by
  simp only [bytesAt, Bool.and_eq_true, decide_eq_true_eq, List.all_eq_true, beq_iff_eq,
    Prod.forall, List.mem_zipIdx_iff_getElem?]
  refine and_congr_right fun hfit => ?_
  constructor
  · intro hall
    apply List.ext_getElem?
    intro i
    rw [getElem?_between]
    by_cases hi : i < bytes.length
    · have hb := hall _ _ (List.getElem?_eq_getElem hi)
      rw [if_pos (by omega), getElem?_pos d (p + i) (by omega)]
      simp only [getElem?_pos d (p + i) (by omega), Option.getD_some] at hb
      rw [hb, List.getElem?_eq_getElem hi]
    · rw [if_neg (by omega), List.getElem?_eq_none (by omega)]
  · intro hrun b i hbi
    have hi : i < bytes.length := (List.getElem?_eq_some_iff.1 hbi).1
    have := congrArg (·[i]?) hrun
    simp only [getElem?_between, if_pos (show p + i < p + bytes.length by omega), hbi] at this
    simp [this]

end ContainerProbe
