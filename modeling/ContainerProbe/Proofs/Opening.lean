import Mathlib
import ContainerProbe.Proofs.Identification

/-!
# Entries are opened lazily

The content pass gives each entry of the container one turn, in order. The turn opens the
entry only when some candidate still without a verdict has a file that wants its content: a
file with binary signatures whose path accepts the entry's name, and which is not a glob that
an earlier entry already satisfied (`Identify.Progress.wants`). The counter of opened entries
counts exactly those turns, and the content of every other entry is never read: a container
whose other entries hold anything else, or cannot be opened at all, is identified alike.

The pass is followed through the progress it has reached before each entry
(`Identify.progressBefore`). Every turn leaves each candidate a later state of itself, frozen
once it has a verdict (`Candidate.Follows`), so the positions the name pass remembered for an
entry still cover every candidate that may need it when its turn comes.

## Main statements

* `Identify.examineEntry_ok`: what one entry's turn can do.
* `Identify.examineEntry_congr`: a turn reads an entry's content only when it opens the entry.
* `Identify.progressBefore_succ`: the pass past an entry is the pass before it and its turn.
* `Identify.progressBefore_induction`: what holds at the start and survives every turn holds
  wherever the pass reaches.
* `entries_opened_lazily`: the opened entries are those some live candidate wants as the pass
  reaches them; the counter counts them; the content of every other entry is never read.
-/

namespace ContainerProbe

/-! ## §1 Later states of a candidate -/

namespace Candidate

variable {σ : Type} [ByteAccess σ] {lib : Library} {name : String} {c c' c'' : Candidate}

/-- `c'` follows `c` in the content pass: a later state of it, which is `c` itself once `c`
has a verdict. -/
structure Follows (c c' : Candidate) : Prop where
  descends : Descends c c'
  frozen : c.isLive = false → c' = c

theorem Follows.refl (c : Candidate) : Follows c c := ⟨Descends.refl c, fun _ => rfl⟩

theorem Follows.trans (h : Follows c c') (h' : Follows c' c'') : Follows c c'' := by
  refine ⟨h.descends.trans h'.descends, fun hl => ?_⟩
  have hc' : c' = c := h.frozen hl
  subst hc'
  exact h'.frozen hl

/-- Feeding an entry to the files changes nothing but their counts of passing entries. -/
theorem noteContentFiles_unpassed (lib : Library) (name : String) (files : List FileTally)
    (content : OpenEntry σ) :
    (noteContentFiles lib name files content).1.map (fun f => { f with passed := 0 }) =
      files.map fun f => { f with passed := 0 } := by
  induction files generalizing content with
  | nil => rfl
  | cons f rest ih =>
    unfold noteContentFiles
    split
    · simp [ih]
    · -- a file that wants the entry records at most one more pass
      split
      · simp
      · simp [ih]
      · split <;> simp [ih]
      · simp
      · simp [ih]

/-- What a list of files keeps when only the counts of passing entries change. -/
theorem map_eq_of_unpassed {α : Type} {files files' : List FileTally}
    (h : files'.map (fun f => { f with passed := 0 }) = files.map fun f => { f with passed := 0 })
    (g : FileTally → α) (hg : ∀ f : FileTally, g { f with passed := 0 } = g f) :
    files'.map g = files.map g := by
  have hmap := congrArg (List.map g) h
  simpa [List.map_map, Function.comp_def, hg] using hmap

theorem follows_noteUnreadable (c : Candidate) (name : String) :
    Follows c (c.noteUnreadable name) := by
  cases hl : c.isLive
  · rw [noteUnreadable_of_dead hl]
    exact Follows.refl c
  · obtain ⟨hsig, hfiles, -, -⟩ := noteUnreadable_of_live name hl
    exact ⟨⟨hsig, by rw [hfiles, decl_marked], fun _ => hl⟩, fun h => by simp [hl] at h⟩

theorem follows_reject (c : Candidate) (r : Rejection) : Follows c (c.reject r) := by
  cases hl : c.isLive
  · simp only [reject, hl, Bool.false_eq_true, if_false]
    exact Follows.refl c
  · simp only [reject, hl, if_true]
    exact ⟨⟨rfl, rfl, fun _ => hl⟩, fun h => by simp [hl] at h⟩

/-- Showing an entry's content to a candidate leaves a state that follows it. -/
theorem follows_noteContent (c : Candidate) (content : OpenEntry σ) :
    Follows c (c.noteContent lib name content).2.1 := by
  cases hl : c.isLive
  · simp only [noteContent, hl, Bool.not_false, if_true]
    exact Follows.refl c
  · rcases hr : noteContentFiles lib name c.files content with ⟨files, o, content'⟩
    have hdecl : files.map FileTally.decl = c.files.map FileTally.decl := by
      have hun := noteContentFiles_unpassed lib name c.files content
      rw [hr] at hun
      exact map_eq_of_unpassed hun _ fun _ => rfl
    -- the files take their verdicts first
    have hfiles : Follows c { c with files } :=
      ⟨⟨rfl, hdecl, fun _ => hl⟩, fun h => by simp [hl] at h⟩
    simp only [noteContent, hl, hr, Bool.not_true, Bool.false_eq_true, if_false]
    cases o with
    | settled => exact hfiles
    | rejects r => exact hfiles.trans (follows_reject _ r)
    | fails err => exact hfiles.trans (follows_noteUnreadable _ name)

theorem forall₂_follows_of_getElem? {cs cs' : List Candidate} (hlen : cs'.length = cs.length)
    (i : Nat) (hout : ∀ j, j ≠ i → cs'[j]? = cs[j]?)
    (hin : ∀ c c', cs[i]? = some c → cs'[i]? = some c' → Follows c c') :
    List.Forall₂ Follows cs cs' := by
  refine forall₂_of_getElem? hlen.symm fun j c c' hc hc' => ?_
  by_cases hji : j = i
  · subst hji
    exact hin c c' hc hc'
  · rw [hout j hji, hc] at hc'
    obtain rfl := Option.some.inj hc'
    exact Follows.refl c

end Candidate

namespace Identify

open Candidate

variable {σ : Type} [ByteAccess σ] {lib : Library} {name : String}

/-- Showing an entry to candidates leaves each one a state that follows it. -/
theorem showContent_follows (lib : Library) (name : String) :
    ∀ (is : List Nat) (cs : List Candidate) (content : OpenEntry σ) (shown : Nat)
      (first : Option Fault),
      List.Forall₂ Follows cs (showContent lib name is cs content shown first).1
  | [], cs, _, _, _ => List.forall₂_same.2 fun c _ => Follows.refl c
  | i :: is, cs, content, shown, first => by
    cases hci : cs[i]? with
    | none =>
      simp only [showContent, hci]
      exact showContent_follows lib name is cs content (shown + 1) first
    | some c =>
      rcases hn : c.noteContent lib name content with ⟨r, c', content'⟩
      simp only [showContent, hci, hn]
      have hset : List.Forall₂ Follows cs (cs.set i c') := by
        refine forall₂_follows_of_getElem? (List.length_set ..) i (fun j hj => ?_) fun a b ha hb => ?_
        · exact List.getElem?_set_ne (Ne.symm hj)
        · rw [hci] at ha
          obtain rfl := Option.some.inj ha
          have hlt : i < cs.length := (List.getElem?_eq_some_iff.1 hci).1
          rw [List.getElem?_set_self hlt] at hb
          obtain rfl := Option.some.inj hb
          have hf : Follows c (c.noteContent lib name content).2.1 := follows_noteContent c content
          simpa [hn] using hf
      exact forall₂_trans (fun _ _ _ h₁ h₂ => h₁.trans h₂) hset
        (showContent_follows lib name is _ content' (shown + 1) _)

/-- Marking an entry unreadable leaves each candidate a state that follows it. -/
theorem markUnreadable_follows (name : String) :
    ∀ (live : List Nat) (cs : List Candidate), List.Forall₂ Follows cs (markUnreadable name live cs)
  | [], cs => List.forall₂_same.2 fun c _ => Follows.refl c
  | i :: is, cs => by
    have hmod : List.Forall₂ Follows cs (cs.modify i (·.noteUnreadable name)) := by
      refine forall₂_follows_of_getElem? (List.length_modify ..) i (fun j hj => ?_) fun a b ha hb => ?_
      · rw [List.getElem?_modify]
        simp [Ne.symm hj]
      · rw [List.getElem?_modify, ha] at hb
        obtain rfl := Option.some.inj (by simpa using hb)
        exact follows_noteUnreadable a name
    exact forall₂_trans (fun _ _ _ h₁ h₂ => h₁.trans h₂) hmod (markUnreadable_follows name is _)

/-! ## §2 One entry's turn -/

/-- The positions among `n` of the candidates that still need the content of an entry. -/
def liveAt (p : Progress) (name : String) (n : List Nat) : List Nat :=
  n.filter fun i => (p.candidates[i]?.map (·.needsContent name)) = some true

/-- The candidates after an opened entry's turn with those at the positions `live`, and the
fault the turn met: when the entry cannot be opened, each of them notes it unreadable; else
each in turn is shown its content, and the fault is the first one an evaluation returned. -/
def openTurn (lib : Library) (config : ScanSettings) (e : Entry) (live : List Nat)
    (cs : List Candidate) : List Candidate × Option Fault :=
  match e.content with
  | .error failure => (markUnreadable e.name live cs, some (failure.fault e.name))
  | .ok feed =>
    let r := showContent lib e.name live cs
      (OpenEntry.make e.name (Stream.make feed config.scanLimit) config.usePrefilter) 0 none
    (r.1, r.2.2.2)

/-- What one entry's turn can do: pass over the entry when no candidate at its positions still
needs it; else, with time left, open it once, count it, and leave the candidates and the fault
of `openTurn`, with a warning when there is a fault. -/
theorem examineEntry_ok {config : ScanSettings} {e : Entry} {n : List Nat} {p p' : Progress}
    (h : examineEntry lib config e n p = .ok p') :
    (liveAt p e.name n = [] ∧ p' = p) ∨
    (liveAt p e.name n ≠ [] ∧ config.expired = false ∧
      p'.stats.entriesOpened = p.stats.entriesOpened + 1 ∧
      p'.candidates = (openTurn lib config e (liveAt p e.name n) p.candidates).1 ∧
      p'.warnings = ((openTurn lib config e (liveAt p e.name n) p.candidates).2.map fun f =>
        warning e.name f (liveAt p e.name n) p'.candidates).toList ++ p.warnings) := by
  unfold examineEntry at h
  by_cases hn : n.isEmpty = true
  · simp only [hn, if_true, Except.ok.injEq] at h
    exact .inl ⟨by simp [liveAt, List.isEmpty_iff.1 hn], h.symm⟩
  by_cases hx : config.expired = true
  · simp [hn, hx] at h
  simp only [hn, hx, Bool.false_eq_true, if_false] at h
  generalize hlive : n.filter (fun i => (p.candidates[i]?.map (·.needsContent e.name)) = some true)
    = live at h
  rw [show liveAt p e.name n = live from hlive]
  split at h
  · rename_i hl
    exact .inl ⟨List.isEmpty_iff.1 hl, (Except.ok.inj h).symm⟩
  · rename_i hl
    refine .inr ⟨fun he => by simp [he] at hl, Bool.eq_false_iff.2 hx, ?_⟩
    cases hc : e.content with
    | error failure =>
      simp only [hc, Except.ok.injEq] at h
      subst h
      simp [openTurn, hc]
    | ok feed =>
      rcases hs : showContent lib e.name live p.candidates
        (OpenEntry.make e.name (Stream.make feed config.scanLimit) config.usePrefilter) 0 none
        with ⟨cs, content', shown, first⟩
      simp only [hc, hs, Except.ok.injEq] at h
      subst h
      simp only [openTurn, hc, hs]
      cases first <;> simp

theorem openTurn_follows (lib : Library) (config : ScanSettings) (e : Entry) (live : List Nat)
    (cs : List Candidate) : List.Forall₂ Follows cs (openTurn lib config e live cs).1 := by
  unfold openTurn
  cases e.content with
  | error failure => exact markUnreadable_follows e.name live cs
  | ok feed => exact showContent_follows lib e.name live cs _ 0 none

/-- Every turn leaves each candidate a state that follows it. -/
theorem examineEntry_follows {config : ScanSettings} {e : Entry} {n : List Nat} {p p' : Progress}
    (h : examineEntry lib config e n p = .ok p') :
    List.Forall₂ Follows p.candidates p'.candidates := by
  rcases examineEntry_ok h with ⟨-, rfl⟩ | ⟨-, -, -, hcs, -⟩
  · exact List.forall₂_same.2 fun c _ => Follows.refl c
  · rw [hcs]
    exact openTurn_follows lib config e _ p.candidates

/-- A turn whose entry no candidate at its positions still needs, or that comes after the time
allowed, reads nothing of the entry. -/
theorem examineEntry_unopened {config : ScanSettings} {e : Entry} {n : List Nat} {p : Progress}
    (h : ¬(liveAt p e.name n ≠ [] ∧ config.expired = false)) :
    examineEntry lib config e n p =
      if n.isEmpty || !config.expired then .ok p else .error .timeout := by
  unfold examineEntry
  generalize hlive : n.filter (fun i => (p.candidates[i]?.map (·.needsContent e.name)) = some true)
    = live
  rw [show liveAt p e.name n = live from hlive] at h
  by_cases hn : n.isEmpty = true
  · simp [hn]
  by_cases hx : config.expired = true
  · simp [hn, hx]
  have hl : live = [] := by
    by_contra hne
    exact h ⟨hne, Bool.eq_false_iff.2 hx⟩
  simp [hn, hx, hl]

/-- A turn reads an entry's content only when it opens the entry. -/
theorem examineEntry_congr {config : ScanSettings} {e e' : Entry} {n : List Nat} {p : Progress}
    (hname : e'.name = e.name)
    (hcontent : liveAt p e.name n ≠ [] → config.expired = false → e'.content = e.content) :
    examineEntry lib config e' n p = examineEntry lib config e n p := by
  by_cases hopen : liveAt p e.name n ≠ [] ∧ config.expired = false
  · obtain ⟨name', content'⟩ := e'
    obtain ⟨name, content⟩ := e
    dsimp only at hname hcontent
    rw [hname, hcontent hopen.1 hopen.2]
  · have hopen' : ¬(liveAt p e'.name n ≠ [] ∧ config.expired = false) := by rwa [hname]
    rw [examineEntry_unopened hopen, examineEntry_unopened hopen']

/-! ## §3 The positions the name pass remembers -/

theorem noteName_ascending (name : String) (cs : List Candidate) :
    (noteName name cs).2.Pairwise (· < ·) := by
  -- the positions are a sublist of the positions of all candidates
  have hsub : (((cs.map fun c => c.noteName name).zipIdx.filter (·.1.2)).map Prod.snd).Sublist
      ((cs.map fun c => c.noteName name).zipIdx.map Prod.snd) :=
    List.filter_sublist.map _
  rw [List.zipIdx_map_snd, List.length_map] at hsub
  exact List.Pairwise.sublist hsub List.pairwise_lt_range'

theorem namePass_ascending :
    ∀ (es : List Entry) (cs : List Candidate) (k : Nat) (n : List Nat),
      (namePass es cs).2[k]? = some n → n.Pairwise (· < ·)
  | [], _, _, _, h => by simp [namePass] at h
  | e :: es, cs, k, n, h => by
    have heq : (namePass (e :: es) cs).2 =
        (noteName e.name cs).2 :: (namePass es (noteName e.name cs).1).2 := rfl
    rw [heq] at h
    cases k with
    | zero =>
      obtain rfl := Option.some.inj h
      exact noteName_ascending e.name cs
    | succ k => exact namePass_ascending es _ k n h

/-- The progress the content pass starts from: the candidates of the name pass, settled, and
the counters so far. -/
def startProgress (lib : Library) (c : Container) : Progress :=
  let start := (lib.candidates c.kind).map (Candidate.start · c.name)
  let settled := (namePass c.entries start).1.map fun s => (s.settleNames).1
  let stats : PassStats :=
    { entriesSeen := c.entries.length, candidates := start.length,
      prunedByName := settled.countP isRejected }
  { candidates := settled, stats }

/-- Per entry, the positions of the candidates that the name pass found to need it. -/
def neededBy (lib : Library) (c : Container) : List (List Nat) :=
  (namePass c.entries ((lib.candidates c.kind).map (Candidate.start · c.name))).2

section Named

variable (lib : Library) (c : Container)

theorem start_named : List.Forall₂ (Candidate.Named c.name []) (lib.candidates c.kind)
    ((lib.candidates c.kind).map fun s => Candidate.start s c.name) :=
  List.forall₂_map_right_iff.2 (List.forall₂_same.2 fun s _ => Candidate.named_start c.name s)

theorem neededBy_length : (neededBy lib c).length = c.entries.length :=
  (namePass_named c.name c.entries (start_named lib c)).2.2.1

/-- The positions the name pass remembers for an entry are ascending, and cover every settled
candidate that may need the entry. -/
theorem neededBy_covers {j : Nat} {e : Entry} {n : List Nat} (he : c.entries[j]? = some e)
    (hn : (neededBy lib c)[j]? = some n) :
    n.Pairwise (· < ·) ∧ Covers (startProgress lib c).candidates e.name n := by
  have hcov := ((namePass_named c.name c.entries (start_named lib c)).2.2.2 j e n he hn).2
  have hdesc : List.Forall₂ Candidate.Descends
      (namePass c.entries ((lib.candidates c.kind).map fun s => Candidate.start s c.name)).1
      (startProgress lib c).candidates :=
    List.forall₂_map_right_iff.2
      (List.forall₂_same.2 fun s _ => Candidate.descends_settleNames s)
  exact ⟨namePass_ascending c.entries _ j n hn, hcov.descend hdesc⟩

end Named

/-! ## §4 The content pass, entry by entry -/

theorem contentPass_append (lib : Library) (config : ScanSettings) :
    ∀ (es es' : List Entry) (ns ns' : List (List Nat)) (p : Progress), es.length = ns.length →
      contentPass lib config (es ++ es') (ns ++ ns') p =
        (contentPass lib config es ns p).bind (contentPass lib config es' ns')
  | [], _, [], _, _, _ => rfl
  | e :: es, es', n :: ns, ns', p, h => by
    simp only [List.cons_append, contentPass]
    cases examineEntry lib config e n p with
    | error f => rfl
    | ok p' => exact contentPass_append lib config es es' ns ns' p' (by simpa using h)
  | [], _, _ :: _, _, _, h => by simp at h
  | _ :: _, _, [], _, _, h => by simp at h

theorem contentPass_singleton (lib : Library) (config : ScanSettings) (e : Entry) (n : List Nat)
    (p : Progress) : contentPass lib config [e] [n] p = examineEntry lib config e n p := by
  simp only [contentPass]
  cases examineEntry lib config e n p <;> rfl

/-- The progress of identification as the content pass reaches the entry at index `j`: the
turns of the entries before it, from the settled candidates of the name pass. -/
def progressBefore (lib : Library) (config : ScanSettings) (c : Container) (j : Nat) :
    Except Fault Progress :=
  contentPass lib config (c.entries.take j) ((neededBy lib c).take j) (startProgress lib c)

section Pass

variable {lib : Library} {config : ScanSettings} {c : Container}

theorem progressBefore_zero : progressBefore lib config c 0 = .ok (startProgress lib c) := rfl

/-- The pass past an entry is the pass before it and the entry's turn. -/
theorem progressBefore_succ {j : Nat} {e : Entry} {n : List Nat} (he : c.entries[j]? = some e)
    (hn : (neededBy lib c)[j]? = some n) :
    progressBefore lib config c (j + 1) =
      (progressBefore lib config c j).bind (examineEntry lib config e n) := by
  have hlen : (c.entries.take j).length = ((neededBy lib c).take j).length := by
    simp [neededBy_length]
  unfold progressBefore
  rw [List.take_add_one, List.take_add_one, he, hn, Option.toList_some, Option.toList_some,
    contentPass_append lib config _ _ _ _ _ hlen]
  congr 1
  funext p
  exact contentPass_singleton lib config e n p

/-- Past the last entry the pass stays where it is. -/
theorem progressBefore_of_le {j : Nat} (hj : c.entries.length ≤ j) :
    progressBefore lib config c (j + 1) = progressBefore lib config c j := by
  have hn : (neededBy lib c).length ≤ j := by rw [neededBy_length]; exact hj
  unfold progressBefore
  rw [List.take_of_length_le hj, List.take_of_length_le (Nat.le_succ_of_le hj),
    List.take_of_length_le hn, List.take_of_length_le (Nat.le_succ_of_le hn)]

/-- Identification is the content pass over every entry, read off by final verdict. -/
theorem identify_eq_ok {r : Identification} : identify lib config c = .ok r ↔
    ∃ p, progressBefore lib config c c.entries.length = .ok p ∧
      r = { kind := c.kind,
            matched := (p.candidates.filter fun s => (s.conclude).2 = .matched).map
              (·.signature.id),
            puids := puidsOf lib ((p.candidates.filter fun s => (s.conclude).2 = .matched).map
              (·.signature.id)),
            warnings := p.warnings.reverse, stats := p.stats } := by
  have hpass : progressBefore lib config c c.entries.length =
      contentPass lib config c.entries (neededBy lib c) (startProgress lib c) := by
    unfold progressBefore
    rw [List.take_length, ← neededBy_length lib c, List.take_length]
  have hid : identify lib config c =
      (contentPass lib config c.entries (neededBy lib c) (startProgress lib c)).map fun p =>
        { kind := c.kind,
          matched := (p.candidates.filter fun s => (s.conclude).2 = .matched).map
            (·.signature.id),
          puids := puidsOf lib ((p.candidates.filter fun s => (s.conclude).2 = .matched).map
            (·.signature.id)),
          warnings := p.warnings.reverse, stats := p.stats } := by
    simp only [identify, matched_eq]
    rfl
  rw [hid, ← hpass]
  cases progressBefore lib config c c.entries.length with
  | error f => simp [Except.map]
  | ok p => simp [Except.map, eq_comm]

theorem progressBefore_succ_ok {j : Nat} {e : Entry} {n : List Nat} {p' : Progress}
    (he : c.entries[j]? = some e) (hn : (neededBy lib c)[j]? = some n)
    (h : progressBefore lib config c (j + 1) = .ok p') :
    ∃ p, progressBefore lib config c j = .ok p ∧ examineEntry lib config e n p = .ok p' := by
  rw [progressBefore_succ he hn] at h
  cases hp : progressBefore lib config c j with
  | error f => simp [hp, Except.bind] at h
  | ok p => exact ⟨p, rfl, by simpa [hp, Except.bind] using h⟩

/-- An entry has positions from the name pass exactly when it is an entry. -/
theorem neededBy_getElem? {j : Nat} {e : Entry} (he : c.entries[j]? = some e) :
    ∃ n, (neededBy lib c)[j]? = some n := by
  have hj : j < (neededBy lib c).length := by
    rw [neededBy_length]
    exact (List.getElem?_eq_some_iff.1 he).1
  exact ⟨_, List.getElem?_eq_getElem hj⟩

/-- Induction along the pass: a property of the progress holds wherever the pass reaches when
it holds at the start, survives each entry's turn, and survives the steps past the last entry,
which change nothing. -/
theorem progressBefore_induction {P : Nat → Progress → Prop}
    (hstart : P 0 (startProgress lib c))
    (hturn : ∀ j e n p p', c.entries[j]? = some e → (neededBy lib c)[j]? = some n →
      progressBefore lib config c j = .ok p → progressBefore lib config c (j + 1) = .ok p' →
      examineEntry lib config e n p = .ok p' → P j p → P (j + 1) p')
    (hpast : ∀ j p, c.entries.length ≤ j → progressBefore lib config c j = .ok p → P j p →
      P (j + 1) p) :
    ∀ (j : Nat) {p : Progress}, progressBefore lib config c j = .ok p → P j p
  | 0, p, h => by
    rw [progressBefore_zero] at h
    obtain rfl := Except.ok.inj h
    exact hstart
  | j + 1, p', h => by
    cases he : c.entries[j]? with
    | none =>
      have hj := List.getElem?_eq_none_iff.1 he
      rw [progressBefore_of_le hj] at h
      exact hpast j p' hj h (progressBefore_induction hstart hturn hpast j h)
    | some e =>
      obtain ⟨n, hn⟩ := neededBy_getElem? he
      obtain ⟨p, hp, hstep⟩ := progressBefore_succ_ok he hn h
      exact hturn j e n p p' he hn hp h hstep (progressBefore_induction hstart hturn hpast j hp)

/-- The run lemma of the content pass: every candidate, as the pass reaches a later entry,
follows its state at an earlier one. -/
theorem progressBefore_follows_of_le {j : Nat} {p : Progress}
    (hp : progressBefore lib config c j = .ok p) :
    ∀ (k : Nat) {q : Progress}, j ≤ k → progressBefore lib config c k = .ok q →
      List.Forall₂ Candidate.Follows p.candidates q.candidates := by
  -- at entry `j` itself the pass is at `p`
  have hsame : ∀ {q : Progress}, progressBefore lib config c j = .ok q →
      List.Forall₂ Candidate.Follows p.candidates q.candidates := by
    intro q hq
    rw [hp] at hq
    obtain rfl := Except.ok.inj hq
    exact List.forall₂_same.2 fun s _ => Candidate.Follows.refl s
  intro k q hjk hq
  refine progressBefore_induction
    (P := fun k q => j ≤ k → List.Forall₂ Candidate.Follows p.candidates q.candidates)
    ?_ ?_ ?_ k hq hjk
  · intro hj
    obtain rfl := Nat.le_zero.1 hj
    exact hsame progressBefore_zero
  · intro k e n q q' _ _ _ hq' hstep ih hj
    rcases Nat.eq_or_lt_of_le hj with rfl | hlt
    · exact hsame hq'
    · exact forall₂_trans (fun _ _ _ h₁ h₂ => h₁.trans h₂) (ih (Nat.le_of_lt_succ hlt))
        (examineEntry_follows hstep)
  · intro k q hk hq ih hj
    rcases Nat.eq_or_lt_of_le hj with rfl | hlt
    · rw [← progressBefore_of_le hk] at hq
      exact hsame hq
    · exact ih (Nat.le_of_lt_succ hlt)

theorem progressBefore_follows (j : Nat) {p : Progress}
    (hp : progressBefore lib config c j = .ok p) :
    List.Forall₂ Candidate.Follows (startProgress lib c).candidates p.candidates :=
  progressBefore_follows_of_le progressBefore_zero j (Nat.zero_le j) hp

end Pass

/-! ## §5 Opened entries -/

/-- Whether some candidate is live and has a file that wants the content of an entry with
this name: its path accepts the name, it has binary signatures, and it is not a glob that an
earlier entry already satisfied. -/
def Progress.wants (p : Progress) (name : String) : Bool := p.candidates.any (·.needsContent name)

/-- The positions of the candidates that are live and want an entry's content, ascending. -/
def Progress.wanting (p : Progress) (name : String) : List Nat :=
  (List.range p.candidates.length).filter fun i =>
    (p.candidates[i]?.map (·.needsContent name)) = some true

theorem Progress.wanting_eq_nil_iff (p : Progress) (name : String) :
    p.wanting name = [] ↔ p.wants name = false := by
  simp only [wanting, wants, List.filter_eq_nil_iff, List.mem_range, List.any_eq_false]
  constructor
  · intro h s hs hneed
    obtain ⟨i, hi, rfl⟩ := List.getElem_of_mem hs
    exact h i hi (by simp [List.getElem?_eq_getElem hi, hneed])
  · intro h i hi hneed
    exact h _ (List.getElem_mem hi) (by simpa [List.getElem?_eq_getElem hi] using hneed)

/-- At ascending positions that cover it, the candidates still needing an entry are all those
that want it. -/
theorem liveAt_eq_wanting {p : Progress} {name : String} {n : List Nat}
    (hsort : n.Pairwise (· < ·)) (hcov : Covers p.candidates name n) :
    liveAt p name n = p.wanting name := by
  refine (hsort.filter _).eq_of_mem_iff (List.pairwise_lt_range.filter _) fun i => ?_
  simp only [Progress.wanting, List.mem_filter, List.mem_range]
  constructor
  · rintro ⟨-, h⟩
    obtain ⟨s, hs, -⟩ := Option.map_eq_some_iff.1 (of_decide_eq_true h)
    exact ⟨(List.getElem?_eq_some_iff.1 hs).1, h⟩
  · rintro ⟨-, h⟩
    obtain ⟨s, hs, hneed⟩ := Option.map_eq_some_iff.1 (of_decide_eq_true h)
    exact ⟨hcov.mem hs hneed, h⟩

theorem wants_of_liveAt {p : Progress} {name : String} {n : List Nat} (h : liveAt p name n ≠ []) :
    p.wants name = true := by
  obtain ⟨i, hi⟩ := List.exists_mem_of_ne_nil _ h
  obtain ⟨-, hneed⟩ := List.mem_filter.1 hi
  obtain ⟨s, hs, hsn⟩ := Option.map_eq_some_iff.1 (of_decide_eq_true hneed)
  exact List.any_eq_true.2 ⟨s, List.mem_of_getElem? hs, hsn⟩

/-- Whether the content pass opens the entry at index `j`: as the pass reaches it, some live
candidate wants its content. -/
def opensAt (lib : Library) (config : ScanSettings) (c : Container) (j : Nat) : Bool :=
  match progressBefore lib config c j, c.entries[j]? with
  | .ok p, some e => p.wants e.name
  | _, _ => false

section Opening

variable {lib : Library} {config : ScanSettings} {c : Container}

/-- The candidates still needing an entry as the pass reaches it are all those that want it. -/
theorem liveAt_progressBefore {j : Nat} {e : Entry} {n : List Nat} {p : Progress}
    (hp : progressBefore lib config c j = .ok p) (he : c.entries[j]? = some e)
    (hn : (neededBy lib c)[j]? = some n) : liveAt p e.name n = p.wanting e.name := by
  obtain ⟨hsort, hcov⟩ := neededBy_covers lib c he hn
  exact liveAt_eq_wanting hsort
    (hcov.descend ((progressBefore_follows j hp).imp fun _ _ h => h.descends))

/-- What the turn of an entry does as the pass reaches it: nothing, when no candidate wants the
entry; else, with time left, it opens the entry once for all the candidates that want it. -/
theorem examineEntry_reached {j : Nat} {e : Entry} {n : List Nat} {p p' : Progress}
    (hp : progressBefore lib config c j = .ok p) (he : c.entries[j]? = some e)
    (hn : (neededBy lib c)[j]? = some n) (h : examineEntry lib config e n p = .ok p') :
    (p.wants e.name = false ∧ p' = p) ∨
    (p.wants e.name = true ∧ config.expired = false ∧
      p'.stats.entriesOpened = p.stats.entriesOpened + 1 ∧
      p'.candidates = (openTurn lib config e (p.wanting e.name) p.candidates).1 ∧
      p'.warnings = ((openTurn lib config e (p.wanting e.name) p.candidates).2.map fun f =>
        warning e.name f (p.wanting e.name) p'.candidates).toList ++ p.warnings) := by
  have hlive := liveAt_progressBefore hp he hn
  rw [← hlive]
  rcases examineEntry_ok h with ⟨hnil, hpp⟩ | ⟨hne, hx, hcount, hcs, hws⟩
  · refine .inl ⟨?_, hpp⟩
    rw [← Progress.wanting_eq_nil_iff, ← hlive, hnil]
  · exact .inr ⟨wants_of_liveAt hne, hx, hcount, hcs, hws⟩

/-- The counter of opened entries, as the pass reaches the entry at index `j`, counts the
entries before it that were opened. -/
theorem entriesOpened_progressBefore :
    ∀ (j : Nat) {p : Progress}, progressBefore lib config c j = .ok p →
      p.stats.entriesOpened = (List.range j).countP (opensAt lib config c) := by
  refine progressBefore_induction rfl ?_ ?_
  · intro j e n p p' he hn hp _ hstep ih
    have hopen : opensAt lib config c j = p.wants e.name := by simp [opensAt, hp, he]
    rw [List.range_succ, List.countP_append, List.countP_singleton, ← ih, hopen]
    rcases examineEntry_reached hp he hn hstep with ⟨hw, rfl⟩ | ⟨hw, -, hcount, -, -⟩
    · -- no candidate wants the entry: it stays closed
      rw [hw]
      rfl
    · -- some candidate wants it: it is opened and counted
      rw [hcount, hw]
      rfl
  · intro j p hj _ ih
    have hclosed : opensAt lib config c j = false := by
      simp [opensAt, List.getElem?_eq_none_iff.2 hj]
    rw [List.range_succ, List.countP_append, List.countP_singleton, ← ih, hclosed]
    rfl

/-- The name pass reads entry names only. -/
theorem namePass_congr :
    ∀ {es es' : List Entry}, es'.map (·.name) = es.map (·.name) → ∀ cs : List Candidate,
      namePass es' cs = namePass es cs
  | [], [], _, _ => rfl
  | e' :: es', e :: es, h, cs => by
    simp only [List.map_cons, List.cons.injEq] at h
    simp only [namePass, h.1, namePass_congr h.2]
  | [], _ :: _, h, _ => by simp at h
  | _ :: _, [], h, _ => by simp at h

/-- Two containers of one format and file name whose entries have the same names and, at every
entry the pass opens, the same content, are read alike as far as the pass has gone. -/
theorem progressBefore_congr {c' : Container} (hk : c'.kind = c.kind) (hname : c'.name = c.name)
    (hlen : c'.entries.length = c.entries.length)
    (he : ∀ j e' e, c'.entries[j]? = some e' → c.entries[j]? = some e →
      e'.name = e.name ∧ (opensAt lib config c j = true → e'.content = e.content)) :
    ∀ j, progressBefore lib config c' j = progressBefore lib config c j := by
  have hnames : c'.entries.map (·.name) = c.entries.map (·.name) := by
    refine List.ext_getElem? fun j => ?_
    simp only [List.getElem?_map]
    cases he' : c'.entries[j]? with
    | none =>
      rw [List.getElem?_eq_none_iff.2 (hlen ▸ List.getElem?_eq_none_iff.1 he')]
    | some e' =>
      obtain ⟨e, hej⟩ : ∃ e, c.entries[j]? = some e := by
        have hj : j < c.entries.length := hlen ▸ (List.getElem?_eq_some_iff.1 he').1
        exact ⟨_, List.getElem?_eq_getElem hj⟩
      rw [hej]
      simp [(he j e' e he' hej).1]
  have hstart : startProgress lib c' = startProgress lib c := by
    simp only [startProgress, hk, hname, hlen, namePass_congr hnames]
  have hneed : neededBy lib c' = neededBy lib c := by
    simp only [neededBy, hk, hname, namePass_congr hnames]
  intro j
  induction j with
  | zero => rw [progressBefore_zero, progressBefore_zero, hstart]
  | succ j ih =>
    cases hej : c.entries[j]? with
    | none =>
      have hj : c.entries.length ≤ j := List.getElem?_eq_none_iff.1 hej
      rw [progressBefore_of_le hj, progressBefore_of_le (hlen ▸ hj), ih]
    | some e =>
      obtain ⟨e', he'⟩ : ∃ e', c'.entries[j]? = some e' := by
        have hj : j < c'.entries.length := hlen ▸ (List.getElem?_eq_some_iff.1 hej).1
        exact ⟨_, List.getElem?_eq_getElem hj⟩
      obtain ⟨n, hn⟩ : ∃ n, (neededBy lib c)[j]? = some n := neededBy_getElem? hej
      rw [progressBefore_succ he' (hneed ▸ hn), progressBefore_succ hej hn, ih]
      cases hp : progressBefore lib config c j with
      | error f => rfl
      | ok p =>
        -- the turn reads the content only when it opens the entry
        refine examineEntry_congr (he j e' e he' hej).1 fun hne _ => (he j e' e he' hej).2 ?_
        simp [opensAt, hp, hej, wants_of_liveAt hne]

/-- A pass that reaches an entry reached every entry before it. -/
theorem progressBefore_ok_of_le {k : Nat} {p : Progress}
    (h : progressBefore lib config c k = .ok p) : ∀ j ≤ k, ∃ q, progressBefore lib config c j = .ok q := by
  induction k generalizing p with
  | zero =>
    intro j hj
    rw [Nat.le_zero.1 hj]
    exact ⟨p, h⟩
  | succ k ih =>
    intro j hj
    rcases Nat.eq_or_lt_of_le hj with rfl | hlt
    · exact ⟨p, h⟩
    have hk : ∃ q, progressBefore lib config c k = .ok q := by
      cases he : c.entries[k]? with
      | none =>
        rw [progressBefore_of_le (List.getElem?_eq_none_iff.1 he)] at h
        exact ⟨p, h⟩
      | some e =>
        obtain ⟨n, hn⟩ := neededBy_getElem? he
        obtain ⟨q, hq, -⟩ := progressBefore_succ_ok he hn h
        exact ⟨q, hq⟩
    obtain ⟨q, hq⟩ := hk
    exact ih hq j (Nat.le_of_lt_succ hlt)

/-- No entry is opened when no candidate left live by the name pass has a file with binary
signatures: a candidate that wants an entry later was live then, with such a file. -/
theorem opensAt_eq_false
    (h : ∀ s ∈ (startProgress lib c).candidates, s.isLive = true →
      ∀ f ∈ s.files, f.requirement.hasBinary = false) (j : Nat) :
    opensAt lib config c j = false := by
  unfold opensAt
  split
  · rename_i p e hp he
    refine Bool.eq_false_iff.2 fun hw => ?_
    obtain ⟨s', hs', hneed⟩ := List.any_eq_true.1 hw
    obtain ⟨i, hi, rfl⟩ := List.getElem_of_mem hs'
    obtain ⟨s, hs, hfol⟩ := forall₂_getElem? (progressBefore_follows j hp)
      (List.getElem?_eq_getElem hi)
    simp only [Candidate.needsContent, Bool.and_eq_true, List.any_eq_true] at hneed
    obtain ⟨hl, f, hf, hwant⟩ := hneed
    obtain ⟨hacc, hb, -⟩ := FileTally.wantsEntry_iff.1 hwant
    obtain ⟨g, hg, -, hgb⟩ := hfol.descends.exists_accepting_binary ⟨f, hf, hacc, hb⟩
    have hno := h s (List.mem_of_getElem? hs) (hfol.descends.live hl) g hg
    rw [hgb] at hno
    cases hno
  · rfl

end Opening

end Identify

open Identify in
/-- Entries are opened lazily and at most once. In every run of identification that succeeds,
the content pass reaches every entry and gives it one turn, which opens the entry exactly when
some candidate still without a verdict has a file that wants its content; the counter of
opened entries counts those turns; the content of every other entry is never read, so a
container whose other entries hold anything else is identified alike; and nothing is opened
when no candidate left live by the name pass has a file with binary signatures. -/
theorem entries_opened_lazily (lib : Library) (config : ScanSettings) (c : Container)
    {r : Identification} (hr : identify lib config c = .ok r) :
    (∀ j ≤ c.entries.length, ∃ p, progressBefore lib config c j = .ok p) ∧
    r.stats.entriesOpened = (List.range c.entries.length).countP (opensAt lib config c) ∧
    (∀ c' : Container, c'.kind = c.kind → c'.name = c.name →
      c'.entries.length = c.entries.length →
      (∀ j e' e, c'.entries[j]? = some e' → c.entries[j]? = some e →
        e'.name = e.name ∧ (opensAt lib config c j = true → e'.content = e.content)) →
      identify lib config c' = .ok r) ∧
    ((∀ s ∈ (startProgress lib c).candidates, s.isLive = true →
        ∀ f ∈ s.files, f.requirement.hasBinary = false) →
      r.stats.entriesOpened = 0) := by
  obtain ⟨p, hp, rfl⟩ := identify_eq_ok.1 hr
  have hcount := entriesOpened_progressBefore c.entries.length hp
  refine ⟨progressBefore_ok_of_le hp, hcount, fun c' hk hname hlen he => ?_, fun h => ?_⟩
  · -- the other container's pass goes through the same progresses
    refine identify_eq_ok.2 ⟨p, ?_, ?_⟩
    · rw [hlen, progressBefore_congr hk hname hlen he]
      exact hp
    · rw [hk]
  · rw [hcount, List.countP_eq_zero]
    intro j _
    simp [opensAt_eq_false h j]

open Identify in
/-- An archive of two entries and a signature that needs the first to begin with a zero byte:
the first entry is opened; the second, which cannot be opened, is never looked at. -/
theorem entries_opened_lazily_second_unread :
    let lib : Library :=
      { signatures := [{ id := 1, container := .zip, description := none, files :=
          [{ path := .exact "a", presence := .required, binary := [[0]] }] }]
        patterns := [⟨"^ 00", .atStart, [.literal [0]]⟩]
        formats := []
        prefilter := none }
    let archive : Container :=
      { kind := .zip, entries := [⟨"a", .ok (.ofBytes ⟨#[0]⟩)⟩, ⟨"b", .error .notFound⟩] }
    ∃ r, identify lib {} archive = .ok r ∧
      (∀ j ≤ archive.entries.length, ∃ p, progressBefore lib {} archive j = .ok p) ∧
      r.stats.entriesOpened =
        (List.range archive.entries.length).countP (opensAt lib {} archive) ∧
      (∀ c' : Container, c'.kind = archive.kind → c'.name = archive.name →
        c'.entries.length = archive.entries.length →
        (∀ j e' e, c'.entries[j]? = some e' → archive.entries[j]? = some e →
          e'.name = e.name ∧ (opensAt lib {} archive j = true → e'.content = e.content)) →
        identify lib {} c' = .ok r) ∧
      ((∀ s ∈ (startProgress lib archive).candidates, s.isLive = true →
          ∀ f ∈ s.files, f.requirement.hasBinary = false) →
        r.stats.entriesOpened = 0) := by
  intro lib archive
  have hok : (identify lib {} archive).toBool = true := by decide +kernel
  match h : identify lib {} archive, hok with
  | .ok r, _ => exact ⟨r, rfl, entries_opened_lazily lib {} archive h⟩

end ContainerProbe
