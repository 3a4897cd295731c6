import Mathlib
import ContainerProbe.Proofs.Prefilter

/-!
# The prefilter finds exactly the occurrences of the leading literals

A pattern qualifies for the prefilter with a literal (`Prefilter.Qualifies`) when it is floating,
begins with that literal, and the literal has at least `max(minLiteralLength, 1)` bytes. The
prefilter of a list of patterns covers exactly the qualifying ones; its automaton has one slot
per distinct literal, so patterns with the same literal share a slot.

One scan of a haystack takes the occurrences the automaton reports, slot and start, in the
order it reports them, which is by their end: occurrences of different literals overlap, and a
later start may come first. Each start goes to every pattern of its slot, and each pattern's list
is then sorted and rid of repeats. When the automaton reports exactly the occurrences of its
literals, the list of a covered pattern is the strictly ascending list of the occurrences of
its literal, which is what `Prefilter.offsets` gives the matcher.

## Main statements

* `Prefilter.build_eq_none_iff`, `Prefilter.covers_iff`: when there is a prefilter, and what it
  covers.
* `Prefilter.ascending_eraseReps_mergeSort`: sorting and dropping repeats gives the strictly
  ascending list of the members.
* `Prefilter.scan_eq_offsets`: a scan gives each pattern the offsets the matcher uses;
  `Prefilter.scan_of_qualifies`: for a qualifying pattern, every occurrence of its literal.
* `Prefilter.literals_length_eq_ncard`, `Prefilter.unfilteredCount_eq_ncard`: the counts.
* `prefilter_finds_leading_literals`: coverage, the scan and the three counts.
-/

namespace ContainerProbe

/-! ## §1 Counting by position -/

/-- The positions of a list whose members satisfy `P` are as many as those members. -/
theorem ncard_positions_eq_countP {α : Type} (P : α → Bool) :
    ∀ l : List α, {i : Nat | ∃ a, l[i]? = some a ∧ P a = true}.ncard = l.countP P
  | [] => by simp
  | a :: l => by
    have hfin : {i : Nat | ∃ x, l[i]? = some x ∧ P x = true}.Finite :=
      (Set.finite_lt_nat l.length).subset fun i ⟨_, hx, _⟩ => (List.getElem?_eq_some_iff.1 hx).1
    have himage : ((· + 1) '' {i : Nat | ∃ x, l[i]? = some x ∧ P x = true}).ncard =
        l.countP P := by
      rw [Set.ncard_image_of_injective _ (add_left_injective 1), ncard_positions_eq_countP P l]
    -- position `0` holds `a`, and position `i + 1` holds what position `i` of `l` holds
    have hsplit : {i : Nat | ∃ x, (a :: l)[i]? = some x ∧ P x = true} =
        {i | i = 0 ∧ P a = true} ∪ (· + 1) '' {i : Nat | ∃ x, l[i]? = some x ∧ P x = true} := by
      ext i
      cases i with
      | zero => simp
      | succ i => simp
    rw [hsplit, List.countP_cons]
    cases hP : P a
    · simp [himage]
    · have hzero : {i | i = 0 ∧ true = true} = {0} := by simp
      rw [hzero, Set.singleton_union, Set.ncard_insert_of_notMem (by simp) (hfin.image _),
        himage]
      simp

namespace Prefilter

/-! ## §2 Which patterns are covered -/

/-- A pattern qualifies for the prefilter with a literal: it is floating, it begins with the
literal, and the literal has at least `max(minLiteralLength, 1)` bytes. -/
def Qualifies (config : PrefilterSettings) (p : Pattern) (lit : List UInt8) : Prop :=
  p.anchor = .floating ∧ p.leadingLiteral? = some lit ∧
    Nat.max config.minLiteralLength 1 ≤ lit.length

variable {patterns : List Pattern} {config : PrefilterSettings} {pf : Prefilter}

theorem coverOf_eq_some_iff {p : Pattern} {lit : List UInt8} :
    coverOf config p = some lit ↔ Qualifies config p lit := by
  unfold coverOf Qualifies
  by_cases hfl : p.anchor = .floating
  · cases hlead : p.leadingLiteral? with
    | none => simp [hfl]
    | some l =>
      by_cases hlen : Nat.max config.minLiteralLength 1 ≤ l.length
      · simp only [hfl, hlen, if_true, Option.some.injEq, true_and]
        exact ⟨fun h => ⟨h, h ▸ hlen⟩, fun h => h.1⟩
      · simp only [hfl, hlen, if_true, if_false, reduceCtorEq, Option.some.injEq, true_and,
          false_iff, not_and]
        rintro rfl
        exact hlen
  · simp [hfl]

/-- The literals a list of patterns brings to the automaton, before repeats are dropped: the
cover of each pattern, in order. -/
theorem mem_covers_iff {lit : List UInt8} :
    lit ∈ (patterns.map (coverOf config)).filterMap id ↔
      ∃ p ∈ patterns, Qualifies config p lit := by
  simp only [List.mem_filterMap, List.mem_map, id_eq]
  constructor
  · rintro ⟨_, ⟨p, hp, hcov⟩, rfl⟩
    exact ⟨p, hp, coverOf_eq_some_iff.1 hcov⟩
  · rintro ⟨p, hp, hq⟩
    exact ⟨_, ⟨p, hp, coverOf_eq_some_iff.2 hq⟩, rfl⟩

/-- Dropping repeats keeps the first of each member, so no member is left twice. -/
theorem nodup_eraseDups {α : Type} [BEq α] [LawfulBEq α] :
    ∀ l : List α, l.eraseDups.Nodup
  | [] => List.nodup_nil
  | a :: l => by
    rw [List.eraseDups_cons, List.nodup_cons]
    refine ⟨fun h => ?_, nodup_eraseDups _⟩
    simpa using (List.mem_filter.1 (List.mem_eraseDups.1 h)).2
termination_by l => l.length
decreasing_by exact Nat.lt_succ_of_le (List.length_filter_le _ _)

/-- There is no prefilter exactly when prefiltering is disabled or no pattern qualifies. -/
theorem build_eq_none_iff :
    build patterns config = none ↔
      config.enabled = false ∨ ∀ p ∈ patterns, ∀ lit, ¬Qualifies config p lit := by
  unfold build
  cases config.enabled
  · simp
  · simp only [Bool.not_true, Bool.false_eq_true, if_false, Bool.true_eq_false, false_or]
    split
    · next hempty =>
      refine iff_of_true rfl fun p hp lit hq => ?_
      have hmem : lit ∈ ((patterns.map (coverOf config)).filterMap id).eraseDups :=
        List.mem_eraseDups.2 (mem_covers_iff.2 ⟨p, hp, hq⟩)
      rw [List.isEmpty_iff.1 hempty] at hmem
      cases hmem
    · next hne =>
      refine iff_of_false (by simp) fun hnone => hne ?_
      rw [List.isEmpty_iff, List.eq_nil_iff_forall_not_mem]
      intro lit hmem
      obtain ⟨p, hp, hq⟩ := mem_covers_iff.1 (List.mem_eraseDups.1 hmem)
      exact hnone p hp lit hq

section Built

variable (hb : build patterns config = some pf)
include hb

theorem literals_build : pf.literals = ((patterns.map (coverOf config)).filterMap id).eraseDups := by
  unfold build at hb
  dsimp only at hb
  split at hb
  · cases hb
  · split at hb
    · cases hb
    · cases hb
      rfl

theorem unfilteredCount_build :
    pf.unfilteredCount = (patterns.zip (patterns.map (coverOf config))).countP
      fun (p, l) => p.anchor = .floating ∧ l.isNone := by
  unfold build at hb
  dsimp only at hb
  split at hb
  · cases hb
  · split at hb
    · cases hb
    · cases hb
      rfl

/-- The literal a built prefilter keeps for a pattern id is the pattern's cover. -/
theorem literalOf_getD (id : Nat) :
    pf.literalOf[id]?.getD none = (patterns[id]?).bind (coverOf config) := by
  rw [literalOf_build hb, List.getElem?_map]
  cases patterns[id]? <;> rfl

/-- A built prefilter covers exactly the patterns that qualify. -/
theorem covers_iff (id : Nat) :
    pf.covers id = true ↔ ∃ p lit, patterns[id]? = some p ∧ Qualifies config p lit := by
  unfold covers
  rw [literalOf_getD hb, Option.isSome_iff_exists]
  simp only [Option.bind_eq_some_iff, coverOf_eq_some_iff]
  constructor
  · rintro ⟨lit, p, hp, hq⟩
    exact ⟨p, lit, hp, hq⟩
  · rintro ⟨p, lit, hp, hq⟩
    exact ⟨lit, p, hp, hq⟩

/-- The automaton's literals are the literals of the qualifying patterns, each once. -/
theorem mem_literals {lit : List UInt8} :
    lit ∈ pf.literals ↔ ∃ p ∈ patterns, Qualifies config p lit := by
  rw [literals_build hb, List.mem_eraseDups, mem_covers_iff]

theorem nodup_literals : pf.literals.Nodup := by
  rw [literals_build hb]
  exact nodup_eraseDups _

/-- The literal of a covered pattern has a slot of the automaton. -/
theorem mem_literals_of_literalOf {id : Nat} {lit : List UInt8}
    (h : pf.literalOf[id]? = some (some lit)) : lit ∈ pf.literals := by
  rw [literals_build hb, List.mem_eraseDups, ← literalOf_build hb, List.mem_filterMap]
  exact ⟨some lit, List.mem_of_getElem? h, rfl⟩

end Built

/-! ## §3 One scan -/

/-- Dropping repeats in a row is `destutter` on inequality: the loop keeps the last member
kept and the members kept before it, reversed. -/
theorem eraseRepsBy_loop_eq {α : Type} [DecidableEq α] :
    ∀ (a : α) (l acc : List α),
      List.eraseRepsBy.loop (· == ·) a l acc = acc.reverse ++ l.destutter' (· ≠ ·) a
  | a, [], acc => by simp [List.eraseRepsBy.loop, List.destutter']
  | a, b :: l, acc => by
    by_cases hab : a = b
    · subst hab
      simp [List.eraseRepsBy.loop, List.destutter', eraseRepsBy_loop_eq a l acc]
    · have hne : (a == b) = false := by simpa using hab
      simp [List.eraseRepsBy.loop, List.destutter', hab, hne, eraseRepsBy_loop_eq b l (a :: acc)]

theorem eraseReps_eq_destutter {α : Type} [DecidableEq α] (l : List α) :
    l.eraseReps = l.destutter (· ≠ ·) := by
  cases l with
  | nil => rfl
  | cons a l => simp [List.eraseReps, List.eraseRepsBy, eraseRepsBy_loop_eq, List.destutter]

/-- Sorting a list of offsets and dropping repeats in a row gives a strictly ascending list with
the same members. -/
theorem ascending_eraseReps_mergeSort (l : List Nat) :
    l.mergeSort.eraseReps.Pairwise (· < ·) ∧ ∀ x, x ∈ l.mergeSort.eraseReps ↔ x ∈ l := by
  have hsorted : l.mergeSort.Pairwise (· ≤ ·) := List.sortedLE_mergeSort.pairwise
  -- on a sorted list, dropping repeats in a row drops every repeat
  have hdedup : l.mergeSort.eraseReps = l.mergeSort.dedup := by
    rw [eraseReps_eq_destutter]
    exact hsorted.destutter_eq_dedup
  rw [hdedup]
  refine ⟨?_, fun x => by rw [List.mem_dedup, List.mem_mergeSort]⟩
  have hle : l.mergeSort.dedup.Pairwise (· ≤ ·) := hsorted.sublist (List.dedup_sublist _)
  exact (hle.and (List.nodup_dedup _)).imp fun h => Nat.lt_of_le_of_ne h.1 h.2

/-- The patterns of a slot are the covered patterns with the slot's literal. -/
theorem mem_slotPatterns {slot id : Nat} :
    id ∈ pf.slotPatterns slot ↔
      ∃ lit, pf.literals[slot]? = some lit ∧ pf.literalOf[id]? = some (some lit) := by
  unfold slotPatterns
  cases hslot : pf.literals[slot]? with
  | none => simp
  | some lit =>
    simp only [List.mem_filter, List.mem_range, decide_eq_true_eq, Option.some.injEq,
      exists_eq_left']
    exact ⟨fun h => h.2, fun h => ⟨(List.getElem?_eq_some_iff.1 h).1, h⟩⟩

/-- When the automaton reports exactly the occurrences of its literals, a scan gives each
pattern of a built prefilter the offsets the matcher uses: the occurrences of its literal,
ascending, and no list for a pattern it does not cover. -/
theorem scan_eq_offsets (hb : build patterns config = some pf) (h : ByteArray)
    (hits : List (Nat × Nat))
    (hhits : ∀ slot start, (slot, start) ∈ hits ↔
      ∃ lit, pf.literals[slot]? = some lit ∧ bytesAt h start lit = true)
    (id : Nat) : pf.scan hits id = pf.offsets id h := by
  unfold scan offsets covers
  cases hlit : pf.literalOf[id]?.getD none with
  | none => simp
  | some lit =>
    have hof : pf.literalOf[id]? = some (some lit) := by
      cases hget : pf.literalOf[id]? with
      | none => simp [hget] at hlit
      | some o => simp only [hget, Option.getD_some] at hlit; rw [hlit]
    obtain ⟨slot, hslot⟩ := List.getElem?_of_mem (mem_literals_of_literalOf hb hof)
    simp only [Option.isSome_some, if_true, Option.map_some, Option.some.injEq]
    refine (ascending_eraseReps_mergeSort _).1.eq_of_mem_iff (occurrences_ascending h lit)
      fun x => ?_
    rw [(ascending_eraseReps_mergeSort _).2, mem_occurrences, List.mem_filterMap]
    constructor
    · -- a start handed to the pattern is an occurrence of the literal of its slot
      rintro ⟨⟨slot', start⟩, hhit, hsome⟩
      by_cases hin : id ∈ pf.slotPatterns slot'
      · simp only [hin, if_true, Option.some.injEq] at hsome
        subst hsome
        obtain ⟨lit', hslot', hat⟩ := (hhits slot' start).1 hhit
        obtain ⟨lit'', hslot'', hof'⟩ := mem_slotPatterns.1 hin
        rw [hslot'] at hslot''
        obtain rfl := Option.some.inj hslot''
        rw [hof] at hof'
        obtain rfl := Option.some.inj (Option.some.inj hof')
        exact ⟨((bytesAt_iff h start lit).1 hat).1.trans' (Nat.le_add_right _ _), hat⟩
      · simp [hin] at hsome
    · -- an occurrence of the literal is reported in the literal's slot
      rintro ⟨-, hat⟩
      refine ⟨(slot, x), (hhits slot x).2 ⟨lit, hslot, hat⟩, ?_⟩
      simp [mem_slotPatterns.2 ⟨lit, hslot, hof⟩]

/-- A scan gives no list to a pattern the prefilter does not cover. -/
theorem scan_of_uncovered (hits : List (Nat × Nat)) {id : Nat} (hc : pf.covers id = false) :
    pf.scan hits id = none := by
  simp [scan, hc]

/-- When the automaton reports exactly the occurrences of the literals, a scan gives a
qualifying pattern the ascending list of every position where its literal stands. -/
theorem scan_of_qualifies (hb : build patterns config = some pf) (h : ByteArray)
    (hits : List (Nat × Nat))
    (hhits : ∀ slot start, (slot, start) ∈ hits ↔ ∃ lit, pf.literals[slot]? = some lit ∧
      start + lit.length ≤ h.size ∧ between h start (start + lit.length) = lit)
    {id : Nat} {p : Pattern} {lit : List UInt8} (hp : patterns[id]? = some p)
    (hq : Qualifies config p lit) :
    ∃ offs, pf.scan hits id = some offs ∧ offs.Pairwise (· < ·) ∧
      ∀ q, q ∈ offs ↔ q + lit.length ≤ h.size ∧ between h q (q + lit.length) = lit := by
  -- the scan gives the matcher's offsets, and those are the literal's occurrences
  have hscan := scan_eq_offsets hb h hits (fun slot start => by simp only [hhits, bytesAt_iff]) id
  have hlit : pf.literalOf[id]?.getD none = some lit := by
    rw [literalOf_getD hb, hp, Option.bind_some, coverOf_eq_some_iff]
    exact hq
  refine ⟨occurrences h lit, by rw [hscan, offsets, hlit]; rfl,
    occurrences_ascending h lit, fun q => ?_⟩
  rw [mem_occurrences, bytesAt_iff]
  exact ⟨fun hq' => hq'.2, fun hq' => ⟨by omega, hq'⟩⟩

/-! ## §4 The counts -/

/-- A built prefilter holds each distinct covered literal once. -/
theorem literals_length_eq_ncard (hb : build patterns config = some pf) :
    pf.literals.length = {lit | ∃ p ∈ patterns, Qualifies config p lit}.ncard := by
  have hset : {lit | ∃ p ∈ patterns, Qualifies config p lit} = ↑pf.literals.toFinset := by
    ext lit
    simp [mem_literals hb]
  rw [hset, Set.ncard_coe_finset, List.toFinset_card_of_nodup (nodup_literals hb)]

theorem patternCount_eq_ncard : pf.patternCount = {id | pf.covers id = true}.ncard := by
  have hset : {id | pf.covers id = true} =
      {i | ∃ a, pf.literalOf[i]? = some a ∧ a.isSome = true} := by
    ext i
    simp only [covers, Set.mem_ofPred_eq]
    cases pf.literalOf[i]? <;> simp
  rw [hset, ncard_positions_eq_countP, patternCount]

/-- A built prefilter counts the floating patterns it leaves uncovered. -/
theorem unfilteredCount_eq_ncard (hb : build patterns config = some pf) :
    pf.unfilteredCount =
      {id | ∃ p, patterns[id]? = some p ∧ p.anchor = .floating ∧ pf.covers id = false}.ncard := by
  have hset : {id | ∃ p, patterns[id]? = some p ∧ p.anchor = .floating ∧ pf.covers id = false} =
      {i | ∃ a, (patterns.zip (patterns.map (coverOf config)))[i]? = some a ∧
        decide (a.1.anchor = .floating ∧ a.2.isNone) = true} := by
    ext i
    simp only [covers, literalOf_getD hb, Set.mem_ofPred_eq, List.getElem?_zip_eq_some,
      List.getElem?_map]
    cases hp : patterns[i]? with
    | none => simp
    | some p => simp [and_comm]
  rw [hset, ncard_positions_eq_countP, unfilteredCount_build hb]

end Prefilter

open Prefilter in
/-- The prefilter finds exactly the occurrences of each covered pattern's leading literal. Over
any list of patterns, pattern `i` having id `i`, and any prefilter settings: there is no
prefilter exactly when prefiltering is disabled or no pattern qualifies. A built prefilter
covers exactly the qualifying patterns; when its automaton reports exactly the occurrences of
its literals in a haystack, each with its slot and start, a scan gives no list to a pattern it
does not cover and gives a covered pattern the strictly ascending list of every position where
its literal stands; it counts each distinct covered literal once, the covered patterns, and
the floating patterns it does not cover. -/
theorem prefilter_finds_leading_literals (patterns : List Pattern)
    (config : PrefilterSettings) :
    (build patterns config = none ↔
      config.enabled = false ∨ ∀ p ∈ patterns, ∀ lit, ¬Qualifies config p lit) ∧
    ∀ pf, build patterns config = some pf →
      (∀ id, pf.covers id = true ↔ ∃ p lit, patterns[id]? = some p ∧ Qualifies config p lit) ∧
      (∀ (h : ByteArray) (hits : List (Nat × Nat)),
        (∀ slot start, (slot, start) ∈ hits ↔ ∃ lit, pf.literals[slot]? = some lit ∧
          start + lit.length ≤ h.size ∧ between h start (start + lit.length) = lit) →
        ∀ id, (pf.covers id = false → pf.scan hits id = none) ∧
          ∀ p lit, patterns[id]? = some p → Qualifies config p lit →
            ∃ offs, pf.scan hits id = some offs ∧ offs.Pairwise (· < ·) ∧
              ∀ q, q ∈ offs ↔ q + lit.length ≤ h.size ∧ between h q (q + lit.length) = lit) ∧
      pf.literals.length = {lit | ∃ p ∈ patterns, Qualifies config p lit}.ncard ∧
      pf.patternCount = {id | pf.covers id = true}.ncard ∧
      pf.unfilteredCount =
        {id | ∃ p, patterns[id]? = some p ∧ p.anchor = .floating ∧ pf.covers id = false}.ncard := by
  refine ⟨build_eq_none_iff, fun pf hb => ⟨covers_iff hb, fun h hits hhits id => ⟨?_, ?_⟩,
    literals_length_eq_ncard hb, patternCount_eq_ncard, unfilteredCount_eq_ncard hb⟩⟩
  · exact scan_of_uncovered hits
  · exact fun p lit hp hq => scan_of_qualifies hb h hits hhits hp hq

open Prefilter in
/-- Four floating patterns, two of which begin with `aa`, one with `ab`, and one with a literal
too short to cover, over the haystack `aaab`: the automaton reports `aa` at 0 and, overlapping,
at 1, and `ab` at 2. Both patterns of the shared literal get the starts 0 and 1, the pattern of
`ab` gets 2, and the short one no list. -/
theorem prefilter_finds_overlapping_literals :
    let patterns : List Pattern :=
      [⟨"'aa'", .floating, [.literal [0x61, 0x61]]⟩,
       ⟨"'aa' {1} 'b'", .floating, [.literal [0x61, 0x61], .gap 1 (some 1), .literal [0x62]]⟩,
       ⟨"'ab'", .floating, [.literal [0x61, 0x62]]⟩,
       ⟨"'b'", .floating, [.literal [0x62]]⟩]
    let pf : Prefilter :=
      ⟨[some [0x61, 0x61], some [0x61, 0x61], some [0x61, 0x62], none],
       [[0x61, 0x61], [0x61, 0x62]], 1⟩
    let haystack : ByteArray := ⟨#[0x61, 0x61, 0x61, 0x62]⟩
    let hits : List (Nat × Nat) := [(0, 0), (0, 1), (1, 2)]
    build patterns {} = some pf ∧
      (∀ slot start, (slot, start) ∈ hits ↔ ∃ lit, pf.literals[slot]? = some lit ∧
        start + lit.length ≤ haystack.size ∧ between haystack start (start + lit.length) = lit) ∧
      pf.scan hits 0 = some [0, 1] ∧ pf.scan hits 1 = some [0, 1] ∧ pf.scan hits 2 = some [2] ∧
      pf.scan hits 3 = none := by
  intro patterns pf haystack hits
  have hb : build patterns {} = some pf := by decide +kernel
  have hat : ∀ lit q, (q + lit.length ≤ haystack.size ∧
      between haystack q (q + lit.length) = lit) ↔ q ∈ occurrences haystack lit := by
    intro lit q
    rw [mem_occurrences, bytesAt_iff]
    exact ⟨fun h => ⟨by omega, h⟩, fun h => h.2⟩
  have haa : occurrences haystack [0x61, 0x61] = [0, 1] := by decide +kernel
  have hab : occurrences haystack [0x61, 0x62] = [2] := by decide +kernel
  -- the automaton reports `aa` at 0 and at 1, overlapping, and `ab` at 2
  have hhits : ∀ slot start, (slot, start) ∈ hits ↔ ∃ lit, pf.literals[slot]? = some lit ∧
      start + lit.length ≤ haystack.size ∧ between haystack start (start + lit.length) = lit := by
    intro slot start
    simp only [hat]
    rcases slot with _ | _ | slot
    · simp [hits, pf, haa]
    · simp [hits, pf, hab]
    · simp [hits, pf]
  -- a qualifying pattern's list is the ascending list of its literal's occurrences
  have hscan : ∀ id p lit, patterns[id]? = some p → Qualifies {} p lit →
      pf.scan hits id = some (occurrences haystack lit) := by
    intro id p lit hp hq
    obtain ⟨offs, hs, hpw, hmem⟩ :=
      (((prefilter_finds_leading_literals patterns {}).2 pf hb).2.1 haystack hits hhits id).2
        p lit hp hq
    rw [hs, hpw.eq_of_mem_iff (occurrences_ascending haystack lit)
      fun q => (hmem q).trans (hat lit q)]
  refine ⟨hb, hhits, ?_, ?_, ?_, ?_⟩
  · rw [hscan 0 _ [0x61, 0x61] rfl ⟨rfl, rfl, by decide⟩, haa]
  · rw [hscan 1 _ [0x61, 0x61] rfl ⟨rfl, rfl, by decide⟩, haa]
  · rw [hscan 2 _ [0x61, 0x62] rfl ⟨rfl, rfl, by decide⟩, hab]
  · exact (((prefilter_finds_leading_literals patterns {}).2 pf hb).2.1 haystack hits hhits 3).1
      (by decide)

end ContainerProbe
