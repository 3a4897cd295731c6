import Mathlib
import ContainerProbe.Compound.Directory

/-!
# Walking the directory tree

`streamIds` walks the directory from the root's first child with a stack and a list of the
records already entered. A record is entered at most once; entering it pushes its siblings
and, for a storage, its first child. The walk runs on a step budget of `3 * size + 2`.

The budget never runs out first: each step either drops a link from the stack or enters a
record not entered before, which pushes at most three links, so the stack's length plus three
times the number of records not yet entered falls at every step. The walk is therefore
described by a fuel-free relation, `Walks`, and two facts follow from it:

* over any directory, links looping or pointing nowhere included, the walk lists each stream
  reachable from the root's child exactly once and nothing else;
* over a directory whose records hang from the root's child as a finite tree, the walk lists
  the streams in the order it enters the records: a stream before its left subtree, a
  storage's streams after its left subtree and before its right subtree. A stream therefore
  comes out before its left siblings, not in the left-to-right order of its sibling tree.

## Main statements

* `streamIds_walks`: the bounded walk agrees with the fuel-free one.
* `streamIds_reachable_streams`: the walk lists exactly the reachable streams, without
  duplicates.
* `streamIds_preorder`: over a tree, the walk lists the streams in the order it enters them.
-/

namespace ContainerProbe.Compound

/-! ## §1 One step of the walk -/

namespace DirectoryRecord

/-- The links a record pushes, in the order the walk takes them: its left sibling, its
first child when it is a storage, and its right sibling. -/
def links (e : DirectoryRecord) : List Nat :=
  if e.kind = .storage then [e.left, e.child, e.right] else [e.left, e.right]

/-- What entering a record adds to the listing: its id when it is a stream. -/
def listed (sid : Nat) (e : DirectoryRecord) : List Nat :=
  if e.kind = .stream then [sid] else []

theorem length_links_le (e : DirectoryRecord) : e.links.length ≤ 3 := by
  unfold links
  split <;> simp

theorem links_of_storage {e : DirectoryRecord} (h : e.kind = .storage) :
    e.links = [e.left, e.child, e.right] := if_pos h

theorem links_of_ne_storage {e : DirectoryRecord} (h : e.kind ≠ .storage) :
    e.links = [e.left, e.right] := if_neg h

theorem listed_of_stream {e : DirectoryRecord} (sid : Nat) (h : e.kind = .stream) :
    e.listed sid = [sid] := if_pos h

theorem listed_of_ne_stream {e : DirectoryRecord} (sid : Nat) (h : e.kind ≠ .stream) :
    e.listed sid = [] := if_neg h

theorem reverse_listed (sid : Nat) (e : DirectoryRecord) : (e.listed sid).reverse = e.listed sid := by
  unfold listed
  split <;> rfl

end DirectoryRecord

section Steps

variable {entries : Array DirectoryRecord} {fuel sid : Nat} {stack visited acc : List Nat}

theorem walk_nil : walk entries fuel [] visited acc = acc.reverse := by
  cases fuel <;> rfl

theorem walk_skip (h : sid = noStream ∨ sid ∈ visited) :
    walk entries (fuel + 1) (sid :: stack) visited acc = walk entries fuel stack visited acc := by
  rw [walk, if_pos h]

theorem walk_missing (hne : sid ≠ noStream) (hnv : sid ∉ visited) (he : entries[sid]? = none) :
    walk entries (fuel + 1) (sid :: stack) visited acc =
      walk entries fuel stack (sid :: visited) acc := by
  rw [walk, if_neg (by tauto), he]

theorem walk_enter {e : DirectoryRecord} (hne : sid ≠ noStream) (hnv : sid ∉ visited)
    (he : entries[sid]? = some e) :
    walk entries (fuel + 1) (sid :: stack) visited acc =
      walk entries fuel (e.links ++ stack) (sid :: visited) (e.listed sid ++ acc) := by
  rw [walk, if_neg (by tauto), he]
  cases hk : e.kind <;> simp [DirectoryRecord.links, DirectoryRecord.listed, hk]

end Steps

/-! ## §2 The walk without a budget -/

/-- `Walks entries stack visited acc r`: the walk from this stack, with these records entered
and `acc` listed (last first), ends with the listing `r`. -/
inductive Walks (entries : Array DirectoryRecord) : List Nat → List Nat → List Nat → List Nat → Prop
  /-- An empty stack ends the walk. -/
  | done {visited acc : List Nat} : Walks entries [] visited acc acc.reverse
  /-- A missing link, or a record already entered, is dropped. -/
  | skip {sid : Nat} {stack visited acc r : List Nat} : sid = noStream ∨ sid ∈ visited →
      Walks entries stack visited acc r → Walks entries (sid :: stack) visited acc r
  /-- A link past the end of the directory is marked entered and pushes nothing. -/
  | missing {sid : Nat} {stack visited acc r : List Nat} : sid ≠ noStream → sid ∉ visited →
      entries[sid]? = none → Walks entries stack (sid :: visited) acc r →
      Walks entries (sid :: stack) visited acc r
  /-- A record is entered: it pushes its links and, when a stream, is listed. -/
  | enter {sid : Nat} {e : DirectoryRecord} {stack visited acc r : List Nat} : sid ≠ noStream →
      sid ∉ visited → entries[sid]? = some e →
      Walks entries (e.links ++ stack) (sid :: visited) (e.listed sid ++ acc) r →
      Walks entries (sid :: stack) visited acc r

namespace Walks

variable {entries : Array DirectoryRecord}

/-- The walk is deterministic. -/
theorem unique {stack visited acc r r' : List Nat} (h : Walks entries stack visited acc r)
    (h' : Walks entries stack visited acc r') : r = r' := by
  induction h with
  | done => cases h'; rfl
  | skip hs _ ih =>
    cases h' with
    | skip _ h' => exact ih h'
    | missing hne hnv _ _ => tauto
    | enter hne hnv _ _ => tauto
  | missing hne hnv he _ ih =>
    cases h' with
    | skip hs _ => tauto
    | missing _ _ _ h' => exact ih h'
    | enter _ _ he' _ => simp [he] at he'
  | enter hne hnv he _ ih =>
    cases h' with
    | skip hs _ => tauto
    | missing _ _ he' _ => simp [he] at he'
    | enter _ _ he' h' =>
      rw [he] at he'
      cases he'
      exact ih h'

end Walks

/-! ## §3 The budget suffices -/

/-- The records of the directory not yet entered. -/
def unvisited (entries : Array DirectoryRecord) (visited : List Nat) : Nat :=
  ((List.range entries.size).filter fun x => x ∉ visited).length

theorem unvisited_nil (entries : Array DirectoryRecord) : unvisited entries [] = entries.size := by
  simp [unvisited]

theorem unvisited_cons (entries : Array DirectoryRecord) (sid : Nat) (visited : List Nat) :
    unvisited entries (sid :: visited) =
      (((List.range entries.size).filter fun x => x ∉ visited).filter fun x => x ≠ sid).length := by
  simp only [unvisited, List.filter_filter, List.mem_cons, not_or]
  congr 2
  funext x
  simp

theorem unvisited_cons_le (entries : Array DirectoryRecord) (sid : Nat) (visited : List Nat) :
    unvisited entries (sid :: visited) ≤ unvisited entries visited := by
  rw [unvisited_cons]
  exact List.length_filter_le _ _

/-- Entering a record of the directory leaves one record fewer to enter. -/
theorem unvisited_cons_lt {entries : Array DirectoryRecord} {sid : Nat} {visited : List Nat}
    (hlt : sid < entries.size) (hnv : sid ∉ visited) :
    unvisited entries (sid :: visited) < unvisited entries visited := by
  rw [unvisited_cons]
  exact List.length_filter_lt_length_iff_exists.2 ⟨sid, by simp [hlt, hnv], by simp⟩

/-- Given a budget of the stack's length plus three steps per record not yet entered, the
bounded walk ends as the walk without a budget. -/
theorem walks_walk (entries : Array DirectoryRecord) {fuel : Nat} {stack visited acc : List Nat}
    (hfuel : stack.length + 3 * unvisited entries visited ≤ fuel) :
    Walks entries stack visited acc (walk entries fuel stack visited acc) := by
  induction fuel generalizing stack visited acc with
  | zero =>
    have : stack = [] := List.eq_nil_of_length_eq_zero (by omega)
    subst this
    exact walk_nil ▸ .done
  | succ fuel ih =>
    cases stack with
    | nil => exact walk_nil ▸ .done
    | cons sid stack =>
      simp only [List.length_cons] at hfuel
      by_cases hs : sid = noStream ∨ sid ∈ visited
      · rw [walk_skip hs]
        exact .skip hs (ih (by omega))
      · have hne : sid ≠ noStream := fun h => hs (.inl h)
        have hnv : sid ∉ visited := fun h => hs (.inr h)
        cases he : entries[sid]? with
        | none =>
          rw [walk_missing hne hnv he]
          have := unvisited_cons_le entries sid visited
          exact .missing hne hnv he (ih (by omega))
        | some e =>
          -- the links pushed cost at most three steps, paid by the record now entered
          rw [walk_enter hne hnv he]
          have hlt := unvisited_cons_lt (Array.getElem?_eq_some_iff.1 he).1 hnv
          have hlinks := e.length_links_le
          exact .enter hne hnv he (ih (by simp only [List.length_append]; omega))

/-- The bounded walk ends as the walk without a budget, whatever the links. -/
theorem streamIds_walks {entries : Array DirectoryRecord} {root : DirectoryRecord}
    (h0 : entries[0]? = some root) : Walks entries [root.child] [] [] (streamIds entries) := by
  rw [streamIds, h0]
  exact walks_walk entries (by simp only [List.length_singleton, unvisited_nil]; omega)

theorem walk_eq_of_walks {entries : Array DirectoryRecord} {root : DirectoryRecord}
    (h0 : entries[0]? = some root) {r : List Nat} (h : Walks entries [root.child] [] [] r) :
    streamIds entries = r :=
  (streamIds_walks h0).unique h

/-! ## §4 The walk lists the reachable streams -/

/-- The records reachable from `top`: `top` itself, unless it is the missing link, and every
left and right sibling of a reachable record of any kind and every first child of a reachable
storage, other than the missing link. -/
inductive Reaches (entries : Array DirectoryRecord) (top : Nat) : Nat → Prop
  /-- The start is reachable. -/
  | self : top ≠ noStream → Reaches entries top top
  /-- The left sibling of a reachable record. -/
  | left {sid : Nat} {e : DirectoryRecord} : Reaches entries top sid → entries[sid]? = some e →
      e.left ≠ noStream → Reaches entries top e.left
  /-- The right sibling of a reachable record. -/
  | right {sid : Nat} {e : DirectoryRecord} : Reaches entries top sid → entries[sid]? = some e →
      e.right ≠ noStream → Reaches entries top e.right
  /-- The first child of a reachable storage. -/
  | child {sid : Nat} {e : DirectoryRecord} : Reaches entries top sid → entries[sid]? = some e →
      e.kind = .storage → e.child ≠ noStream → Reaches entries top e.child

/-- A stream record of the directory. -/
def IsStream (entries : Array DirectoryRecord) (sid : Nat) : Prop :=
  ∃ e, entries[sid]? = some e ∧ e.kind = .stream

namespace DirectoryRecord

variable (e : DirectoryRecord)

theorem left_mem_links : e.left ∈ e.links := by
  unfold links
  split <;> simp

theorem right_mem_links : e.right ∈ e.links := by
  unfold links
  split <;> simp

theorem child_mem_links (h : e.kind = .storage) : e.child ∈ e.links := by
  simp [links, h]

end DirectoryRecord

theorem Reaches.of_mem_links {entries : Array DirectoryRecord} {top sid y : Nat}
    {e : DirectoryRecord} (h : Reaches entries top sid) (he : entries[sid]? = some e)
    (hy : y ∈ e.links) (hne : y ≠ noStream) : Reaches entries top y := by
  unfold DirectoryRecord.links at hy
  split at hy
  · rename_i hk
    simp only [List.mem_cons, List.not_mem_nil, or_false] at hy
    rcases hy with rfl | rfl | rfl
    · exact .left h he hne
    · exact .child h he hk hne
    · exact .right h he hne
  · simp only [List.mem_cons, List.not_mem_nil, or_false] at hy
    rcases hy with rfl | rfl
    · exact .left h he hne
    · exact .right h he hne

/-- What holds at every state of a walk from `top`: what it entered and what it still holds
is reachable, it has listed exactly the streams entered, once each, and every link of a record
entered is missing, entered, or still on the stack. -/
structure WalkInv (entries : Array DirectoryRecord) (top : Nat) (stack visited acc : List Nat) :
    Prop where
  visited_reaches : ∀ x ∈ visited, Reaches entries top x
  stack_reaches : ∀ x ∈ stack, x = noStream ∨ Reaches entries top x
  acc_nodup : acc.Nodup
  mem_acc : ∀ x, x ∈ acc ↔ x ∈ visited ∧ IsStream entries x
  closed : ∀ x ∈ visited, ∀ e, entries[x]? = some e →
    ∀ y ∈ e.links, y = noStream ∨ y ∈ visited ∨ y ∈ stack
  top_seen : top = noStream ∨ top ∈ visited ∨ top ∈ stack

namespace WalkInv

variable {entries : Array DirectoryRecord} {top sid : Nat} {stack visited acc : List Nat}

theorem initial (entries : Array DirectoryRecord) (top : Nat) : WalkInv entries top [top] [] [] where
  visited_reaches := by simp
  stack_reaches x hx := by
    rw [List.mem_singleton.1 hx]
    by_cases h : top = noStream
    · exact .inl h
    · exact .inr (.self h)
  acc_nodup := List.nodup_nil
  mem_acc := by simp
  closed := by simp
  top_seen := by simp

theorem skip (hi : WalkInv entries top (sid :: stack) visited acc)
    (hs : sid = noStream ∨ sid ∈ visited) : WalkInv entries top stack visited acc where
  visited_reaches := hi.visited_reaches
  stack_reaches x hx := hi.stack_reaches x (List.mem_cons_of_mem _ hx)
  acc_nodup := hi.acc_nodup
  mem_acc := hi.mem_acc
  closed x hx e he y hy := by
    rcases hi.closed x hx e he y hy with h | h | h
    · exact .inl h
    · exact .inr (.inl h)
    · rcases List.mem_cons.1 h with rfl | h
      · tauto
      · exact .inr (.inr h)
  top_seen := by
    rcases hi.top_seen with h | h | h
    · exact .inl h
    · exact .inr (.inl h)
    · rcases List.mem_cons.1 h with rfl | h
      · tauto
      · exact .inr (.inr h)

/-- The record about to be entered is reachable. -/
theorem reaches_head (hi : WalkInv entries top (sid :: stack) visited acc) (hne : sid ≠ noStream) :
    Reaches entries top sid :=
  (hi.stack_reaches sid (List.mem_cons_self ..)).resolve_left hne

theorem missing (hi : WalkInv entries top (sid :: stack) visited acc) (hne : sid ≠ noStream)
    (he : entries[sid]? = none) : WalkInv entries top stack (sid :: visited) acc where
  visited_reaches x hx := by
    rcases List.mem_cons.1 hx with rfl | hx
    · exact hi.reaches_head hne
    · exact hi.visited_reaches x hx
  stack_reaches x hx := hi.stack_reaches x (List.mem_cons_of_mem _ hx)
  acc_nodup := hi.acc_nodup
  mem_acc x := by
    -- a link past the end is no stream, so the listing is unchanged
    rw [hi.mem_acc x, List.mem_cons]
    constructor
    · rintro ⟨hx, hs⟩
      exact ⟨.inr hx, hs⟩
    · rintro ⟨rfl | hx, hs⟩
      · obtain ⟨e, he', -⟩ := hs
        simp [he] at he'
      · exact ⟨hx, hs⟩
  closed x hx e he' y hy := by
    rcases List.mem_cons.1 hx with rfl | hx
    · simp [he] at he'
    · rcases hi.closed x hx e he' y hy with h | h | h
      · exact .inl h
      · exact .inr (.inl (List.mem_cons_of_mem _ h))
      · rcases List.mem_cons.1 h with rfl | h
        · exact .inr (.inl (List.mem_cons_self ..))
        · exact .inr (.inr h)
  top_seen := by
    rcases hi.top_seen with h | h | h
    · exact .inl h
    · exact .inr (.inl (List.mem_cons_of_mem _ h))
    · rcases List.mem_cons.1 h with rfl | h
      · exact .inr (.inl (List.mem_cons_self ..))
      · exact .inr (.inr h)

theorem mem_listed {e : DirectoryRecord} {x : Nat} (he : entries[sid]? = some e) :
    x ∈ e.listed sid ↔ x = sid ∧ IsStream entries x := by
  unfold DirectoryRecord.listed IsStream
  split
  · rename_i hk
    simp only [List.mem_singleton, iff_self_and]
    rintro rfl
    exact ⟨e, he, hk⟩
  · rename_i hk
    simp only [List.not_mem_nil, false_iff, not_and, not_exists]
    rintro rfl e' he' hk'
    rw [he] at he'
    cases he'
    exact hk hk'

theorem enter (hi : WalkInv entries top (sid :: stack) visited acc) (hne : sid ≠ noStream)
    (hnv : sid ∉ visited) {e : DirectoryRecord} (he : entries[sid]? = some e) :
    WalkInv entries top (e.links ++ stack) (sid :: visited) (e.listed sid ++ acc) where
  visited_reaches x hx := by
    rcases List.mem_cons.1 hx with rfl | hx
    · exact hi.reaches_head hne
    · exact hi.visited_reaches x hx
  stack_reaches x hx := by
    rcases List.mem_append.1 hx with hx | hx
    · by_cases h : x = noStream
      · exact .inl h
      · exact .inr ((hi.reaches_head hne).of_mem_links he hx h)
    · exact hi.stack_reaches x (List.mem_cons_of_mem _ hx)
  acc_nodup := by
    refine List.nodup_append.2 ⟨?_, hi.acc_nodup, ?_⟩
    · unfold DirectoryRecord.listed
      split <;> simp
    · -- the record entered was not entered before, so it is not listed yet
      intro a ha b hb hab
      rw [mem_listed he] at ha
      rw [← hab, ha.1, hi.mem_acc] at hb
      exact hnv hb.1
  mem_acc x := by
    rw [List.mem_append, mem_listed he, hi.mem_acc, List.mem_cons]
    constructor
    · rintro (⟨rfl, hs⟩ | ⟨hx, hs⟩)
      · exact ⟨.inl rfl, hs⟩
      · exact ⟨.inr hx, hs⟩
    · rintro ⟨rfl | hx, hs⟩
      · exact .inl ⟨rfl, hs⟩
      · exact .inr ⟨hx, hs⟩
  closed x hx e' he' y hy := by
    rcases List.mem_cons.1 hx with rfl | hx
    · rw [he] at he'
      cases he'
      exact .inr (.inr (List.mem_append_left _ hy))
    · rcases hi.closed x hx e' he' y hy with h | h | h
      · exact .inl h
      · exact .inr (.inl (List.mem_cons_of_mem _ h))
      · rcases List.mem_cons.1 h with rfl | h
        · exact .inr (.inl (List.mem_cons_self ..))
        · exact .inr (.inr (List.mem_append_right _ h))
  top_seen := by
    rcases hi.top_seen with h | h | h
    · exact .inl h
    · exact .inr (.inl (List.mem_cons_of_mem _ h))
    · rcases List.mem_cons.1 h with rfl | h
      · exact .inr (.inl (List.mem_cons_self ..))
      · exact .inr (.inr (List.mem_append_right _ h))

/-- Once the stack is empty, the records entered are exactly the reachable ones: the start
was entered, and every link of a record entered was entered too. -/
theorem mem_visited (hi : WalkInv entries top [] visited acc) (x : Nat) :
    x ∈ visited ↔ Reaches entries top x := by
  refine ⟨hi.visited_reaches x, fun h => ?_⟩
  have hlink : ∀ {sid y : Nat} {e : DirectoryRecord}, sid ∈ visited → entries[sid]? = some e →
      y ∈ e.links → y ≠ noStream → y ∈ visited := by
    intro sid y e hs he hy hne
    simpa [hne] using hi.closed sid hs e he y hy
  induction h with
  | self hne => simpa [hne] using hi.top_seen
  | left _ he hne ih => exact hlink ih he (DirectoryRecord.left_mem_links _) hne
  | right _ he hne ih => exact hlink ih he (DirectoryRecord.right_mem_links _) hne
  | child _ he hk hne ih => exact hlink ih he (DirectoryRecord.child_mem_links _ hk) hne

end WalkInv

/-- A walk that keeps the invariant ends listing each reachable stream once, and nothing
else. -/
theorem Walks.listing {entries : Array DirectoryRecord} {top : Nat} {stack visited acc r : List Nat}
    (h : Walks entries stack visited acc r) (hi : WalkInv entries top stack visited acc) :
    r.Nodup ∧ ∀ x, x ∈ r ↔ Reaches entries top x ∧ IsStream entries x := by
  induction h with
  | done =>
    refine ⟨List.nodup_reverse.2 hi.acc_nodup, fun x => ?_⟩
    rw [List.mem_reverse, hi.mem_acc, hi.mem_visited]
  | skip hs _ ih => exact ih (hi.skip hs)
  | missing hne _ he _ ih => exact ih (hi.missing hne he)
  | enter hne hnv he _ ih => exact ih (hi.enter hne hnv he)

/-- Every id the walk lists is a stream record of the directory. -/
theorem isStream_of_mem_streamIds {entries : Array DirectoryRecord} {sid : Nat}
    (h : sid ∈ streamIds entries) : IsStream entries sid := by
  cases h0 : entries[0]? with
  | none => simp [streamIds, h0] at h
  | some root =>
    have hl := (streamIds_walks h0).listing (WalkInv.initial entries root.child)
    exact ((hl.2 sid).1 h).2

/-- Whatever its links (loops, self-links, ids past the end, missing links), the walk lists
without duplicates exactly the streams reachable from the root's first child through the
siblings of any record and the first children of storages. -/
theorem streamIds_reachable_streams (entries : Array DirectoryRecord) :
    (streamIds entries).Nodup ∧
      ∀ sid, sid ∈ streamIds entries ↔
        ∃ root, entries[0]? = some root ∧ Reaches entries root.child sid ∧ IsStream entries sid := by
  cases h0 : entries[0]? with
  | none => simp [streamIds, h0]
  | some root =>
    obtain ⟨hnd, hmem⟩ := (streamIds_walks h0).listing (WalkInv.initial entries root.child)
    refine ⟨hnd, fun sid => ?_⟩
    rw [hmem]
    simp

/-! ## §5 The order of the listing -/

/-- `Preorder entries sid ids listing`: the records hanging from `sid` form a finite tree,
`ids` are its records in the order the walk enters them and `listing` its streams in the
order the walk lists them. A stream comes before its left subtree; a storage's own streams
(those under its first child) come after its left subtree and before its right subtree. -/
inductive Preorder (entries : Array DirectoryRecord) : Nat → List Nat → List Nat → Prop
  /-- A missing link hangs nothing. -/
  | none : Preorder entries noStream [] []
  /-- A link past the end of the directory is entered and lists nothing. -/
  | missing {sid : Nat} : sid ≠ noStream → entries[sid]? = none → Preorder entries sid [sid] []
  /-- A stream, then its left subtree, then its right subtree. -/
  | stream {sid : Nat} {e : DirectoryRecord} {li lo ri ro : List Nat} : sid ≠ noStream →
      entries[sid]? = some e → e.kind = .stream →
      Preorder entries e.left li lo → Preorder entries e.right ri ro →
      Preorder entries sid (sid :: (li ++ ri)) (sid :: (lo ++ ro))
  /-- A storage's left subtree, then what hangs from its first child, then its right
  subtree. -/
  | storage {sid : Nat} {e : DirectoryRecord} {li lo ci co ri ro : List Nat} : sid ≠ noStream →
      entries[sid]? = some e → e.kind = .storage →
      Preorder entries e.left li lo → Preorder entries e.child ci co →
      Preorder entries e.right ri ro →
      Preorder entries sid (sid :: (li ++ ci ++ ri)) (lo ++ co ++ ro)
  /-- Any other record: its left subtree, then its right subtree. -/
  | other {sid : Nat} {e : DirectoryRecord} {li lo ri ro : List Nat} : sid ≠ noStream →
      entries[sid]? = some e → e.kind ≠ .stream → e.kind ≠ .storage →
      Preorder entries e.left li lo → Preorder entries e.right ri ro →
      Preorder entries sid (sid :: (li ++ ri)) (lo ++ ro)

/-- `WalksFrom entries heads ids listing`: a stack that starts with `heads` enters the records
`ids`, none of them entered before, and lists `listing` ahead of the rest of the stack. -/
structure WalksFrom (entries : Array DirectoryRecord) (heads ids listing : List Nat) : Prop where
  walks {stack visited acc r : List Nat} : (∀ x ∈ ids, x ∉ visited) →
    Walks entries stack (ids.reverse ++ visited) (listing.reverse ++ acc) r →
    Walks entries (heads ++ stack) visited acc r

namespace WalksFrom

variable {entries : Array DirectoryRecord}

/-- Two segments of the stack, walked one after the other, enter and list what each does, in
order, when they enter different records. -/
theorem append {h₁ h₂ i₁ i₂ l₁ l₂ : List Nat} (ha : WalksFrom entries h₁ i₁ l₁)
    (hb : WalksFrom entries h₂ i₂ l₂) (hnd : (i₁ ++ i₂).Nodup) :
    WalksFrom entries (h₁ ++ h₂) (i₁ ++ i₂) (l₁ ++ l₂) := by
  constructor
  intro stack visited acc r hfresh hrest
  rw [List.append_assoc]
  apply ha.walks (fun x hx => hfresh x (List.mem_append_left _ hx))
  apply hb.walks
  · -- the second segment's records were entered neither before nor by the first segment
    intro x hx hmem
    rcases List.mem_append.1 hmem with h | h
    · exact (List.nodup_append.1 hnd).2.2 x (List.mem_reverse.1 h) x hx rfl
    · exact hfresh x (List.mem_append_right _ hx) h
  · simpa [List.reverse_append, List.append_assoc] using hrest

/-- Entering a record whose links walk as a segment puts the record ahead of what they
enter, and its own listing ahead of theirs. -/
theorem enter {sid : Nat} {e : DirectoryRecord} {ids listing : List Nat}
    (hne : sid ≠ noStream) (he : entries[sid]? = some e)
    (hsub : WalksFrom entries e.links ids listing) (hsid : sid ∉ ids) :
    WalksFrom entries [sid] (sid :: ids) (e.listed sid ++ listing) := by
  constructor
  intro stack visited acc r hfresh hrest
  refine .enter hne (hfresh sid List.mem_cons_self) he ?_
  apply hsub.walks
  · intro x hx hmem
    rcases List.mem_cons.1 hmem with rfl | h
    · exact hsid hx
    · exact hfresh x (List.mem_cons_of_mem _ hx) h
  · simpa [List.reverse_append, List.append_assoc, DirectoryRecord.reverse_listed] using hrest

end WalksFrom

/-- Walking a tree whose records were not entered before enters them all and lists its
streams, in order, ahead of the rest of the stack. -/
theorem Preorder.walks {entries : Array DirectoryRecord} {sid : Nat} {ids listing : List Nat}
    (h : Preorder entries sid ids listing) (hnd : ids.Nodup) :
    WalksFrom entries [sid] ids listing := by
  induction h with
  | none =>
    constructor
    intro stack visited acc r _ hrest
    exact .skip (.inl rfl) (by simpa using hrest)
  | missing hne he =>
    constructor
    intro stack visited acc r hfresh hrest
    exact .missing hne (hfresh _ (List.mem_singleton_self _)) he (by simpa using hrest)
  | @stream sid e li lo ri ro hne he hk _ _ ihl ihr =>
    obtain ⟨hsid, hlr⟩ := List.nodup_cons.1 hnd
    have hsub : WalksFrom entries e.links (li ++ ri) (lo ++ ro) := by
      rw [DirectoryRecord.links_of_ne_storage (by simp [hk])]
      exact (ihl hlr.of_append_left).append (ihr hlr.of_append_right) hlr
    simpa [DirectoryRecord.listed_of_stream _ hk] using hsub.enter hne he hsid
  | @storage sid e li lo ci co ri ro hne he hk _ _ _ ihl ihc ihr =>
    obtain ⟨hsid, hlcr⟩ := List.nodup_cons.1 hnd
    have hlc := hlcr.of_append_left
    have hsub : WalksFrom entries e.links (li ++ ci ++ ri) (lo ++ co ++ ro) := by
      rw [DirectoryRecord.links_of_storage hk]
      exact ((ihl hlc.of_append_left).append (ihc hlc.of_append_right) hlc).append
        (ihr hlcr.of_append_right) hlcr
    simpa [DirectoryRecord.listed_of_ne_stream _ (by simp [hk] : e.kind ≠ .stream)] using
      hsub.enter hne he hsid
  | @other sid e li lo ri ro hne he hk hk' _ _ ihl ihr =>
    obtain ⟨hsid, hlr⟩ := List.nodup_cons.1 hnd
    have hsub : WalksFrom entries e.links (li ++ ri) (lo ++ ro) := by
      rw [DirectoryRecord.links_of_ne_storage hk']
      exact (ihl hlr.of_append_left).append (ihr hlr.of_append_right) hlr
    simpa [DirectoryRecord.listed_of_ne_stream _ hk] using hsub.enter hne he hsid

/-- Over a directory whose records hang from the root's first child as a finite tree, each
entered once, the walk lists the streams in the order it enters them: a stream before its
left and then its right subtree, a storage's own streams between its left and right
subtrees. -/
theorem streamIds_preorder {entries : Array DirectoryRecord} {root : DirectoryRecord}
    (h0 : entries[0]? = some root) {ids listing : List Nat}
    (htree : Preorder entries root.child ids listing) (hnd : ids.Nodup) :
    streamIds entries = listing :=
  walk_eq_of_walks h0 ((htree.walks hnd).walks (by simp)
    (by simpa using (Walks.done : Walks entries [] ids.reverse listing.reverse listing.reverse.reverse)))

/-- A storage between two streams: the walk enters `Middle`, its left sibling `Alpha`, its
right sibling `Storage` and the storage's child `Inner`, and lists the three streams in that
order. -/
theorem streamIds_preorder_storage :
    let dir : Array DirectoryRecord :=
      #[⟨"Root Entry", .root, noStream, noStream, 3, endOfChain, 0⟩,
        ⟨"Alpha", .stream, noStream, noStream, noStream, endOfChain, 0⟩,
        ⟨"Storage", .storage, noStream, noStream, 4, endOfChain, 0⟩,
        ⟨"Middle", .stream, 1, 2, noStream, endOfChain, 0⟩,
        ⟨"Inner", .stream, noStream, noStream, noStream, endOfChain, 0⟩]
    Preorder dir 3 [3, 1, 2, 4] [3, 1, 4] ∧ streamIds dir = [3, 1, 4] := by
  intro dir
  have h1 : Preorder dir 1 [1] [1] :=
    @Preorder.stream dir 1 _ [] [] [] [] (by decide) rfl rfl .none .none
  have h4 : Preorder dir 4 [4] [4] :=
    @Preorder.stream dir 4 _ [] [] [] [] (by decide) rfl rfl .none .none
  have h2 : Preorder dir 2 [2, 4] [4] :=
    @Preorder.storage dir 2 _ [] [] [4] [4] [] [] (by decide) rfl rfl .none h4 .none
  have h3 : Preorder dir 3 [3, 1, 2, 4] [3, 1, 4] :=
    @Preorder.stream dir 3 _ [1] [1] [2, 4] [4] (by decide) rfl rfl h1 h2
  exact ⟨h3, streamIds_preorder rfl h3 (by decide)⟩

/-- Three sibling streams `A < B < C` stored as the tree `B` with `A` on its left and `C` on
its right: the walk lists `B` before its left sibling `A`, where the left-to-right order of
the siblings is `A, B, C`. -/
theorem streamIds_node_before_left_sibling :
    let dir : Array DirectoryRecord :=
      #[⟨"Root Entry", .root, noStream, noStream, 1, endOfChain, 0⟩,
        ⟨"B", .stream, 2, 3, noStream, endOfChain, 0⟩,
        ⟨"A", .stream, noStream, noStream, noStream, endOfChain, 0⟩,
        ⟨"C", .stream, noStream, noStream, noStream, endOfChain, 0⟩]
    dir[1]?.map (·.left) = some 2 ∧ dir[1]?.map (·.right) = some 3 ∧
      streamIds dir = [1, 2, 3] := by
  decide

end ContainerProbe.Compound
