import Mathlib
import ContainerProbe.Pattern.ByteSet

/-!
# The membership table of a byte set

A byte set answers membership from a table of four 64-bit words rather than from its ranges:
byte `x` is bit `x % 64` of word `x / 64`. This module shows that the table says what the
ranges say. Filling sets exactly the bits of the bytes of each range, the loop over a range
reaching the byte 255 without wrapping; complementing the words flips every bit; and looking a
byte up reads its own bit and no other. Counting the set bits word by word then counts the
accepted bytes, since the four words split the bytes into four blocks of 64.

## Main statements

* `ByteSet.contains_eq_accepts`: the table lookup is the range test.
* `ByteSet.bitCount_eq_cardinality`: the bits of the table count the accepted bytes.
* `ByteSet.table_agrees_with_ranges`: for ranges written in any order and either end first, a
  byte is in the table exactly when some range holds it, flipped by the negation; the table's
  count is the number of such bytes; and the ranges are kept in order, smaller end first.
-/

namespace ContainerProbe

namespace ByteSet

/-! ## §1 Reading the table -/

theorem word_val (x : UInt8) : (word x : Nat) = x.toNat / 64 := by
  simp [word, UInt8.toNat_shiftRight, Nat.shiftRight_eq_div_pow]

theorem bit_toNat (x : UInt8) : (bit x).toNat = 2 ^ (x.toNat % 64) := by
  have hlt : x.toNat % 64 < 64 := Nat.mod_lt _ (by decide)
  have hpow : 2 ^ (x.toNat % 64) < 2 ^ 64 := Nat.pow_lt_pow_right (by decide) hlt
  have h63 : x.toNat &&& (63 : UInt8).toNat = x.toNat % 64 := Nat.and_two_pow_sub_one_eq_mod _ 6
  simp only [bit, UInt64.toNat_shiftLeft, UInt8.toNat_toUInt64, UInt8.toNat_and, h63]
  rw [Nat.mod_eq_of_lt hlt, Nat.shiftLeft_eq]
  simpa using Nat.mod_eq_of_lt hpow

/-- A lookup masks the byte's word with its bit, so it reads that bit. -/
theorem contains_eq_holds (c : ByteSet) (x : UInt8) : c.contains x = holds c.table x := by
  rw [contains, holds, Bool.eq_iff_iff, bne_iff_ne, ne_eq, ← UInt64.toNat_inj, UInt64.toNat_and,
    bit_toNat, Nat.and_two_pow]
  cases c.table[word x].toNat.testBit (x.toNat % 64) <;> simp

/-- Two bytes share a word and a bit only when they are the same byte. -/
theorem eq_of_word_eq {x y : UInt8} (hw : word x = word y) (hb : x.toNat % 64 = y.toNat % 64) :
    x = y := by
  have := congrArg Fin.val hw
  rw [word_val, word_val] at this
  apply UInt8.toNat_inj.mp
  omega

/-! ## §2 Filling the table -/

/-- Setting a byte's bit sets no other byte's. -/
theorem holds_mark (t : Vector UInt64 4) (x y : UInt8) :
    holds (mark t y) x = (x == y || holds t x) := by
  unfold holds mark
  simp only [Fin.getElem_fin]
  rw [Vector.getElem_set]
  split
  · -- the same word: the bits of `x` and `y` coincide only when the bytes do
    rename_i hw
    rw [UInt64.toNat_or, Nat.testBit_or, bit_toNat, Nat.testBit_two_pow]
    simp only [hw]
    by_cases hxy : x = y
    · subst hxy
      simp
    · have hb : ¬y.toNat % 64 = x.toNat % 64 := fun hb =>
        hxy (eq_of_word_eq (Fin.ext hw).symm hb.symm)
      simp [hxy, hb]
  · rename_i hw
    have : x ≠ y := by
      rintro rfl
      exact hw rfl
    simp [this]

/-- Setting the bits of bytes given by their numbers, one at a time. -/
theorem holds_foldl_mark (t : Vector UInt64 4) (x : UInt8) {ns : List Nat}
    (hns : ∀ n ∈ ns, n < 256) :
    holds (ns.foldl (fun t n => mark t (UInt8.ofNat n)) t) x =
      (decide (x.toNat ∈ ns) || holds t x) := by
  induction ns generalizing t with
  | nil => simp
  | cons n ns ih =>
    rw [List.foldl_cons, ih _ fun m hm => hns m (List.mem_cons_of_mem _ hm), holds_mark]
    have hn : (UInt8.ofNat n).toNat = n := UInt8.toNat_ofNat_of_lt' (hns n List.mem_cons_self)
    by_cases hxn : x.toNat = n
    · have : x = UInt8.ofNat n := UInt8.toNat_inj.mp (by rw [hn, hxn])
      simp [this, hn]
    · have : x ≠ UInt8.ofNat n := fun h => hxn (by rw [h, hn])
      simp [beq_eq_false_iff_ne.mpr this, hxn]

/-- Marking a range sets the bits of its bytes, and keeps the others. -/
theorem holds_markRange (t : Vector UInt64 4) (r : ByteRange) (x : UInt8) :
    holds (markRange t r) x = (r.holds x || holds t x) := by
  have hlo := r.lo.toNat_lt
  have hhi := r.hi.toNat_lt
  have hord : r.lo.toNat ≤ r.hi.toNat := UInt8.le_iff_toNat_le.mp r.ordered
  rw [markRange, holds_foldl_mark t x fun n hn => by rw [List.mem_range'_1] at hn; omega]
  congr 1
  simp only [List.mem_range'_1, ByteRange.holds, UInt8.le_iff_toNat_le, decide_eq_decide]
  omega

/-- Marking ranges in turn sets the bits of the bytes of any of them. -/
theorem holds_foldl_markRange (t : Vector UInt64 4) (rs : List ByteRange) (x : UInt8) :
    holds (rs.foldl markRange t) x = ((rs.any fun r => r.holds x) || holds t x) := by
  induction rs generalizing t with
  | nil => simp
  | cons r rs ih =>
    rw [List.foldl_cons, ih, holds_markRange, List.any_cons, Bool.or_left_comm, Bool.or_assoc]

theorem holds_replicate_zero (x : UInt8) : holds (Vector.replicate 4 0) x = false := by
  simp [holds]

/-- Complementing every word flips every byte's bit. -/
theorem holds_map_not (t : Vector UInt64 4) (x : UInt8) :
    holds (t.map (~~~ ·)) x = !holds t x := by
  have hlt : x.toNat % 64 < 64 := Nat.mod_lt _ (by decide)
  simp only [holds, Fin.getElem_fin, Vector.getElem_map, ← UInt64.toNat_toBitVec,
    UInt64.toBitVec_not, BitVec.testBit_toNat, BitVec.getLsbD_not, hlt, decide_true,
    Bool.true_and]

/-- The table holds exactly the bytes the set accepts. -/
theorem holds_table (c : ByteSet) (x : UInt8) : holds c.table x = c.accepts x := by
  have hmarked := holds_foldl_markRange (Vector.replicate 4 0) c.ranges x
  rw [holds_replicate_zero, Bool.or_false] at hmarked
  unfold table accepts
  cases c.negated with
  | false => simpa using hmarked
  | true => simp [holds_map_not, hmarked]

/-- Looking a byte up in the table is the range test of the set. -/
theorem contains_eq_accepts (c : ByteSet) (x : UInt8) : c.contains x = c.accepts x := by
  rw [contains_eq_holds, holds_table]

/-! ## §3 Counting the bits -/

/-- The bytes of one word: byte `64 * j + i` is bit `i` of word `j`. -/
theorem countP_block (t : Vector UInt64 4) (j : Nat) (hj : j < 4) :
    (List.range' (64 * j) 64).countP (fun n => holds t (UInt8.ofNat n)) = popCount t[j] := by
  rw [List.range'_eq_map_range, List.countP_map, popCount]
  refine List.countP_congr fun i hi => ?_
  have hi : i < 64 := List.mem_range.mp hi
  have hn : (UInt8.ofNat (64 * j + i)).toNat = 64 * j + i := UInt8.toNat_ofNat_of_lt' (by
    simp only [UInt8.size]
    omega)
  have hw : (word (UInt8.ofNat (64 * j + i)) : Nat) = j := by
    rw [word_val, hn]
    omega
  have hb : (64 * j + i) % 64 = i := by omega
  simp only [Function.comp_apply, holds, Fin.getElem_fin, hw, hn, hb]

theorem toList_four {α : Type} (t : Vector α 4) : t.toList = [t[0], t[1], t[2], t[3]] := by
  apply List.ext_getElem (by simp)
  intro i hi _
  have hi : i < 4 := by simpa using hi
  simp only [Vector.getElem_toList]
  interval_cases i <;> rfl

/-- Counting the set bits of the four words counts the bytes the table holds. -/
theorem countP_allBytes_holds (t : Vector UInt64 4) :
    allBytes.countP (holds t) = Size.total (t.toList.map popCount) := by
  -- the bytes in four blocks of 64, one per word
  have hsplit : List.range 256 =
      List.range' 0 64 ++ List.range' 64 64 ++ List.range' 128 64 ++ List.range' 192 64 := by
    rw [List.range_eq_range', show 256 = 64 + 64 + 64 + 64 from rfl, ← List.range'_append_1,
      ← List.range'_append_1, ← List.range'_append_1]
  rw [allBytes, List.countP_map, hsplit]
  simp only [List.countP_append, toList_four, List.map_cons, List.map_nil, Size.total_cons,
    Size.total_nil]
  rw [← countP_block t 0 (by decide), ← countP_block t 1 (by decide),
    ← countP_block t 2 (by decide), ← countP_block t 3 (by decide)]
  simp only [Function.comp_def, Nat.reduceMul]
  omega

theorem nodup_allBytes : allBytes.Nodup := by
  refine List.Nodup.map_on (fun m hm n hn h => ?_) List.nodup_range
  rw [← UInt8.toNat_ofNat_of_lt' (List.mem_range.mp hm), h,
    UInt8.toNat_ofNat_of_lt' (List.mem_range.mp hn)]

/-- Every byte is listed once, so a count over the list is a count over the bytes. -/
theorem card_filter_eq_countP (p : UInt8 → Bool) :
    (Finset.univ.filter fun x => p x = true).card = allBytes.countP p := by
  have hset : (Finset.univ.filter fun x => p x = true) = (allBytes.filter p).toFinset := by
    ext x
    simp [mem_allBytes]
  rw [hset, List.toFinset_card_of_nodup (nodup_allBytes.filter p), List.countP_eq_length_filter]

/-- The bits of the table count the accepted bytes. -/
theorem bitCount_eq_countP (c : ByteSet) : c.bitCount = allBytes.countP c.accepts := by
  rw [bitCount, ← countP_allBytes_holds]
  exact List.countP_congr fun x _ => by rw [holds_table]

theorem bitCount_eq_cardinality (c : ByteSet) : c.bitCount = c.cardinality := by
  rw [bitCount_eq_countP, cardinality, members, List.countP_eq_length_filter]

/-! ## §4 Ranges as written -/

/-- A byte lies in one of the written ranges, each read with its ends in either order. -/
def Written (pairs : List (UInt8 × UInt8)) (x : UInt8) : Prop :=
  ∃ p ∈ pairs, min p.1 p.2 ≤ x ∧ x ≤ max p.1 p.2

instance (pairs : List (UInt8 × UInt8)) : DecidablePred (Written pairs) :=
  fun _ => inferInstanceAs (Decidable (∃ p ∈ pairs, _))

/-- The range between two bytes holds what lies between the smaller and the larger. -/
theorem holds_span_eq (a b x : UInt8) :
    (ByteRange.span a b).holds x = decide (min a b ≤ x ∧ x ≤ max a b) := by
  rw [ByteRange.holds_span, UInt8.min_def, UInt8.max_def]
  split <;> rfl

theorem accepts_make_written (pairs : List (UInt8 × UInt8)) (negated : Bool) (x : UInt8) :
    (make pairs negated).accepts x = (decide (Written pairs x) ^^ negated) := by
  rw [accepts_make, Bool.bne_eq_xor, List.any_eq]
  congr 1
  exact decide_eq_decide.mpr (by simp only [holds_span_eq, decide_eq_true_eq, Written])

/-- The ranges keep the order they were written in, each with its smaller end first. -/
theorem ranges_make (pairs : List (UInt8 × UInt8)) (negated : Bool) :
    (make pairs negated).ranges.map (fun r => (r.lo, r.hi)) =
      pairs.map fun p => (min p.1 p.2, max p.1 p.2) := by
  simp only [make, List.map_map]
  refine List.map_congr_left fun p _ => ?_
  simp only [Function.comp_apply, ByteRange.span, UInt8.min_def, UInt8.max_def]
  split <;> rfl

/-- A set built from ranges written in any order, either end first: the table holds a byte
exactly when some range holds it, flipped by the negation; the table's count is the number of
such bytes; and the set keeps the ranges in order, smaller end first. -/
theorem table_agrees_with_ranges (pairs : List (UInt8 × UInt8)) (negated : Bool) :
    (∀ x, (make pairs negated).contains x = (decide (Written pairs x) ^^ negated)) ∧
      (make pairs negated).bitCount =
        (Finset.univ.filter fun x => (decide (Written pairs x) ^^ negated) = true).card ∧
      (make pairs negated).ranges.map (fun r => (r.lo, r.hi)) =
        pairs.map fun p => (min p.1 p.2, max p.1 p.2) := by
  refine ⟨fun x => ?_, ?_, ranges_make pairs negated⟩
  · rw [contains_eq_accepts, accepts_make_written]
  · rw [card_filter_eq_countP, bitCount_eq_countP]
    exact List.countP_congr fun x _ => by rw [accepts_make_written]

example : (make [(0x20, 0x10), (0xff, 0xfe)] true).bitCount = 237 := by decide +kernel

end ByteSet

end ContainerProbe
