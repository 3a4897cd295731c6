import Mathlib
import ContainerProbe.Proofs.Opening

/-!
# Read failures are reported consistently with the verdict

An opened entry's turn meets a fault when the entry cannot be opened, or when some candidate's
evaluation of its content returns one (`Identify.turnFault`); the other candidates are still
shown the entry, and the first fault is the one kept. Such a turn leaves one warning, naming
the candidates that wanted the entry and those of them that the turn rejected as unreadable.

This module follows the warnings along the content pass. Two invariants carry it: the warnings
so far are those of the turns that met a fault, one each, in entry order
(`Identify.progressBefore_warnings`); and every candidate that has noted an entry as unreadable
(`Candidate.notedUnreadable`) is among the affected of some warning (`Identify.Reported`).
A candidate is marked only in a turn that meets a fault, and a glob path defers its rejection
to the final verdict, which then reads the mark.

## Main statements

* `Identify.showContent_first`: the fault kept is the first one an evaluation returns.
* `Identify.examineEntry_reported`: one turn keeps every unreadable mark reported.
* `warnings_agree_with_verdicts`: one warning per opened entry whose turn met a fault, in entry
  order, with the affected ids ascending, the rejected ones among them and never matched; and
  every candidate finally rejected as unreadable is named by some warning.
-/

namespace ContainerProbe

/-! ## §1 Unreadable marks -/

namespace Candidate

variable {σ : Type} [ByteAccess σ] {lib : Library} {name : String} {c : Candidate}

/-- Whether a candidate noted an entry it needed as unreadable: it was rejected for one, or a
file of it is marked. -/
def notedUnreadable (c : Candidate) : Bool :=
  decide (c.phase = .rejected .unreadable) || c.files.any (·.unreadable)

/-- Noting a name in the files changes nothing but their counts of names. -/
theorem noteNameFiles_unseen (name : String) (files : List FileTally) :
    (noteNameFiles name files).1.map (fun f => { f with seen := 0 }) =
      files.map fun f => { f with seen := 0 } := by
  induction files with
  | nil => rfl
  | cons f rest ih =>
    unfold noteNameFiles
    split
    · split <;> simp [ih]
    · simp [ih]

theorem any_unreadable_noteNameFiles (name : String) (files : List FileTally) :
    (noteNameFiles name files).1.any (·.unreadable) = files.any (·.unreadable) := by
  have h := congrArg (List.any · (·.unreadable)) (noteNameFiles_unseen name files)
  simpa [List.any_map, Function.comp_def] using h

theorem any_unreadable_noteContentFiles (lib : Library) (name : String) (files : List FileTally)
    (content : OpenEntry σ) :
    (noteContentFiles lib name files content).1.any (·.unreadable) = files.any (·.unreadable) := by
  have h := congrArg (List.any · (·.unreadable)) (noteContentFiles_unpassed lib name files content)
  simpa [List.any_map, Function.comp_def] using h

theorem notedUnreadable_start (s : Signature) (cname : Option String) :
    (start s cname).notedUnreadable = false := by
  simp [notedUnreadable, start]

theorem phase_ne_of_isLive (h : c.isLive = true) (r : Rejection) : c.phase ≠ .rejected r := by
  intro hc
  simp [isLive, hc, Phase.isTerminal] at h

theorem notedUnreadable_of_isLive (h : c.isLive = true) :
    c.notedUnreadable = c.files.any (·.unreadable) := by
  simp [notedUnreadable, phase_ne_of_isLive h]

/-- The name pass marks nothing unreadable. -/
theorem notedUnreadable_noteName (c : Candidate) (name : String) :
    (c.noteName name).1.notedUnreadable = c.notedUnreadable := by
  cases hl : c.isLive
  · rw [noteName_of_dead hl]
  · rw [notedUnreadable_of_isLive hl]
    cases hs : (noteNameFiles name c.files).2.2
    · obtain ⟨hfiles, -, hlive, -⟩ := noteName_of_go hl hs
      rw [notedUnreadable_of_isLive hlive, hfiles, any_unreadable_noteNameFiles]
    · rw [noteName_of_stop hl hs]
      simp [notedUnreadable, any_unreadable_noteNameFiles]

theorem notedUnreadable_settleNames (c : Candidate) :
    c.settleNames.1.notedUnreadable = c.notedUnreadable := by
  cases hl : c.isLive
  · simp [settleNames, hl]
  · rw [notedUnreadable_of_isLive hl]
    unfold settleNames
    simp only [hl, Bool.not_true, Bool.false_eq_true, if_false]
    split
    · simp [notedUnreadable]
    · split
      · exact notedUnreadable_of_isLive hl
      · simp [notedUnreadable]

theorem noteContentFiles_rejects (lib : Library) (name : String) :
    ∀ (files : List FileTally) (content : OpenEntry σ) (r : Rejection),
      (noteContentFiles lib name files content).2.1 = .rejects r → r ≠ .unreadable
  | [], _, _, h => by simp [noteContentFiles] at h
  | f :: rest, content, r, h => by
    unfold noteContentFiles at h
    split at h
    · exact noteContentFiles_rejects lib name rest content r h
    · split at h
      · cases h
      · exact noteContentFiles_rejects lib name rest _ r h
      · split at h
        · exact noteContentFiles_rejects lib name rest _ r h
        · cases h
          simp
      · cases h
        simp
      · exact noteContentFiles_rejects lib name rest _ r h

/-- An evaluation that returns no fault marks nothing unreadable. -/
theorem notedUnreadable_noteContent {content : OpenEntry σ}
    (h : (c.noteContent lib name content).1 = .ok ()) :
    (c.noteContent lib name content).2.1.notedUnreadable = c.notedUnreadable := by
  cases hl : c.isLive
  · simp [noteContent, hl]
  · rcases hr : noteContentFiles lib name c.files content with ⟨files, o, content'⟩
    have hany : files.any (·.unreadable) = c.files.any (·.unreadable) := by
      have h' := any_unreadable_noteContentFiles lib name c.files content
      rwa [hr] at h'
    have hrej := noteContentFiles_rejects lib name c.files content
    rw [hr] at hrej
    simp only [noteContent, hl, hr, Bool.not_true, Bool.false_eq_true, if_false] at h ⊢
    rw [notedUnreadable_of_isLive hl]
    cases o with
    | settled => simp [notedUnreadable, hany, phase_ne_of_isLive hl]
    | rejects r =>
      have hterm : c.phase.isTerminal = false := by simpa [isLive] using hl
      simp [reject, isLive, hterm, notedUnreadable, hany, hrej r rfl]
    | fails err => cases h

/-- A final verdict of rejection as unreadable comes from a mark. -/
theorem notedUnreadable_of_conclude (h : (c.conclude).2 = .rejected .unreadable) :
    c.notedUnreadable = true := by
  cases hl : c.isLive
  · simp only [conclude, hl, Bool.not_false, if_true] at h
    simp [notedUnreadable, h]
  · simp only [conclude, hl, Bool.not_true, Bool.false_eq_true, if_false] at h
    split at h
    · -- an unsettled file, marked unreadable
      rename_i f hf
      have hu : f.unreadable = true := by
        cases hfu : f.unreadable
        · simp [hfu] at h
        · rfl
      simp only [notedUnreadable, Bool.or_eq_true, decide_eq_true_eq, List.any_eq_true]
      exact .inr ⟨f, List.mem_of_find?_eq_some hf, hu⟩
    · split at h <;> cases h

end Candidate

section Lists

variable {α β δ : Type}

theorem exists_mem_of_forall₂ {R : α → β → Prop} :
    ∀ {l₁ : List α} {l₂ : List β}, List.Forall₂ R l₁ l₂ → ∀ a ∈ l₁, ∃ b ∈ l₂, R a b
  | _, _, .nil, _, ha => absurd ha List.not_mem_nil
  | _, _, .cons hab h, a, ha => by
    rcases List.mem_cons.1 ha with rfl | ha
    · exact ⟨_, List.mem_cons_self, hab⟩
    · obtain ⟨b, hb, hR⟩ := exists_mem_of_forall₂ h a ha
      exact ⟨b, List.mem_cons_of_mem _ hb, hR⟩

theorem map_eq_of_forall₂ {R : α → β → Prop} {f : α → δ} {g : β → δ}
    (H : ∀ a b, R a b → g b = f a) :
    ∀ {l₁ : List α} {l₂ : List β}, List.Forall₂ R l₁ l₂ → l₂.map g = l₁.map f
  | _, _, .nil => rfl
  | _, _, .cons hab h => by simp [H _ _ hab, map_eq_of_forall₂ H h]

/-- Reading the items at the positions a predicate picks is filtering by it. -/
theorem filterMap_range_filter (l : List α) (q : α → Bool) (g : α → β) :
    ((List.range l.length).filter fun i => (l[i]?.map q) = some true).filterMap
      (fun i => l[i]?.map g) = (l.filter q).map g := by
  induction l with
  | nil => rfl
  | cons a l ih =>
    rw [List.length_cons, List.range_succ_eq_map, List.filter_cons, List.filter_map,
      List.filter_cons]
    cases hq : q a <;> simpa [Function.comp_def, List.filterMap_map, hq] using ih

end Lists

/-- The candidates a library with distinct signature ids offers for a format have ascending
ids. -/
theorem Library.candidates_ascending {lib : Library} (h : (lib.signatures.map (·.id)).Nodup)
    (kind : ContainerKind) : ((lib.candidates kind).map (·.id)).Pairwise (· < ·) := by
  have hsorted : (lib.candidates kind).Pairwise fun a b => decide (a.id ≤ b.id) = true :=
    List.pairwise_mergeSort (fun a b c hab hbc => by simp at *; omega)
      (fun a b => by simp; omega) _
  have hnd : ((lib.candidates kind).map (·.id)).Nodup := by
    refine ((List.mergeSort_perm _ _).map _).nodup_iff.2 ?_
    exact h.sublist (List.filter_sublist.map _)
  have hle : ((lib.candidates kind).map (·.id)).Pairwise (· ≤ ·) :=
    List.pairwise_map.2 (hsorted.imp fun h => by simpa using h)
  exact (hle.and hnd).imp fun h => Nat.lt_of_le_of_ne h.1 h.2

namespace Identify

open Candidate

variable {σ : Type} [ByteAccess σ]

/-! ## §2 The fault of a turn -/

/-- The fault a result carries, if any. -/
def faultOf : Except Fault Unit → Option Fault
  | .error f => some f
  | .ok () => none

/-- What each candidate at the positions returns when it is shown an entry's content in turn,
each through the shared content as the candidates before it left it. -/
def evaluations (lib : Library) (name : String) :
    List Nat → List Candidate → OpenEntry σ → List (Except Fault Unit)
  | [], _, _ => []
  | i :: is, cs, content =>
    match cs[i]? with
    | none => evaluations lib name is cs content
    | some c =>
      let (r, c', content') := c.noteContent lib name content
      r :: evaluations lib name is (cs.set i c') content'

/-- The fault showing an entry meets is the first fault an evaluation returns. -/
theorem showContent_first (lib : Library) (name : String) :
    ∀ (is : List Nat) (cs : List Candidate) (content : OpenEntry σ) (shown : Nat)
      (first : Option Fault),
      (showContent lib name is cs content shown first).2.2.2 =
        first.or ((evaluations lib name is cs content).findSome? faultOf)
  | [], _, _, _, first => by simp [showContent, evaluations]
  | i :: is, cs, content, shown, first => by
    cases hci : cs[i]? with
    | none =>
      simp only [showContent, evaluations, hci]
      exact showContent_first lib name is cs content (shown + 1) first
    | some c =>
      rcases hn : c.noteContent lib name content with ⟨r, c', content'⟩
      simp only [showContent, evaluations, hci, hn, List.findSome?_cons]
      rw [showContent_first lib name is _ content' (shown + 1)]
      cases first <;> cases r <;> simp [faultOf]

/-- Showing an entry leaves the candidates at other positions as they were. -/
theorem showContent_getElem?_of_not_mem (lib : Library) (name : String) :
    ∀ (is : List Nat) (cs : List Candidate) (content : OpenEntry σ) (shown : Nat)
      (first : Option Fault) {i : Nat}, i ∉ is →
      (showContent lib name is cs content shown first).1[i]? = cs[i]?
  | [], _, _, _, _, _, _ => rfl
  | j :: js, cs, content, shown, first, i, hi => by
    have hij : j ≠ i := fun h => hi (h ▸ List.mem_cons_self)
    have hi' : i ∉ js := fun h => hi (List.mem_cons_of_mem _ h)
    cases hcj : cs[j]? with
    | none =>
      simp only [showContent, hcj]
      exact showContent_getElem?_of_not_mem lib name js cs content _ first hi'
    | some c =>
      rcases hn : c.noteContent lib name content with ⟨r, c', content'⟩
      simp only [showContent, hcj, hn]
      rw [showContent_getElem?_of_not_mem lib name js _ content' _ _ hi', List.getElem?_set_ne hij]

/-- Showing an entry without meeting a fault marks no candidate unreadable. -/
theorem showContent_noted (lib : Library) (name : String) :
    ∀ (is : List Nat) (cs : List Candidate) (content : OpenEntry σ) (shown : Nat)
      (first : Option Fault), (showContent lib name is cs content shown first).2.2.2 = none →
      ∀ {i : Nat} {s' : Candidate}, (showContent lib name is cs content shown first).1[i]? = some s' →
        s'.notedUnreadable = true → ∃ s, cs[i]? = some s ∧ s.notedUnreadable = true
  | [], cs, _, _, _, _, i, s', hs', hn => ⟨s', hs', hn⟩
  | j :: js, cs, content, shown, first, hnone, i, s', hs', hn => by
    cases hcj : cs[j]? with
    | none =>
      simp only [showContent, hcj] at hnone hs'
      exact showContent_noted lib name js cs content _ first hnone hs' hn
    | some c =>
      rcases hc : c.noteContent lib name content with ⟨r, c', content'⟩
      simp only [showContent, hcj, hc] at hnone hs'
      -- no fault so far, and none from this candidate
      have hr : r = .ok () := by
        have hfirst := hnone
        rw [showContent_first] at hfirst
        cases first <;> cases r <;> simp_all
      obtain ⟨s, hs, hns⟩ := showContent_noted lib name js _ content' _ _ hnone hs' hn
      by_cases hij : i = j
      · subst hij
        have hlt : i < cs.length := (List.getElem?_eq_some_iff.1 hcj).1
        rw [List.getElem?_set_self hlt] at hs
        obtain rfl := Option.some.inj hs
        have hok : (c.noteContent lib name content).1 = .ok () := by rw [hc, hr]
        have hsame := notedUnreadable_noteContent hok
        rw [hc] at hsame
        exact ⟨c, hcj, hsame ▸ hns⟩
      · rw [List.getElem?_set_ne (Ne.symm hij)] at hs
        exact ⟨s, hs, hns⟩

/-- The fault the turn of an opened entry meets: the entry cannot be opened; or else the first
fault a candidate's evaluation of its content returns, the candidates that want it being shown
it in turn. -/
def turnFault (lib : Library) (config : ScanSettings) (e : Entry) (p : Progress) :
    Option Fault :=
  match e.content with
  | .error failure => some (failure.fault e.name)
  | .ok feed =>
    (evaluations lib e.name (p.wanting e.name) p.candidates
      (OpenEntry.make e.name (Stream.make feed config.scanLimit) config.usePrefilter)).findSome?
        faultOf

/-- Whether the content pass opens the entry at index `j` and its turn meets a fault. -/
def failsAt (lib : Library) (config : ScanSettings) (c : Container) (j : Nat) : Bool :=
  match progressBefore lib config c j, c.entries[j]? with
  | .ok p, some e => p.wants e.name && (turnFault lib config e p).isSome
  | _, _ => false

section Turn

variable {lib : Library} {config : ScanSettings} {e : Entry} {live : List Nat}
  {cs : List Candidate}

theorem openTurn_wanting (lib : Library) (config : ScanSettings) (e : Entry) (p : Progress) :
    (openTurn lib config e (p.wanting e.name) p.candidates).2 = turnFault lib config e p := by
  unfold openTurn turnFault
  cases e.content with
  | error failure => rfl
  | ok feed =>
    dsimp only
    rw [showContent_first]
    rfl

theorem openTurn_getElem?_of_not_mem (hnd : live.Nodup) {i : Nat} (hi : i ∉ live) :
    (openTurn lib config e live cs).1[i]? = cs[i]? := by
  unfold openTurn
  cases e.content with
  | error failure => simp [(markUnreadable_spec e.name live hnd cs).2 i, hi]
  | ok feed => exact showContent_getElem?_of_not_mem lib e.name live cs _ 0 none hi

/-- A turn that meets no fault marks no candidate unreadable. -/
theorem openTurn_noted (hf : (openTurn lib config e live cs).2 = none) {i : Nat}
    {s' : Candidate} (hs' : (openTurn lib config e live cs).1[i]? = some s')
    (hn : s'.notedUnreadable = true) : ∃ s, cs[i]? = some s ∧ s.notedUnreadable = true := by
  unfold openTurn at hf hs'
  cases hc : e.content with
  | error failure => simp [hc] at hf
  | ok feed =>
    simp only [hc] at hf hs'
    exact showContent_noted lib e.name live cs _ 0 none hf hs' hn

end Turn

/-! ## §3 The ids a warning names -/

theorem getElem?_map_id_of_follows {cs cs' : List Candidate} (h : List.Forall₂ Follows cs cs') :
    ∀ i : Nat, cs'[i]?.map (·.signature.id) = cs[i]?.map (·.signature.id) := by
  induction h with
  | nil => intro i; rfl
  | cons hab _ ih =>
    intro i
    cases i with
    | zero => simp [hab.descends.signature]
    | succ i => simpa using ih i

variable {cs cs' : List Candidate} {name : String}

/-- A candidate with a verdict is still there after any turns. -/
theorem mem_of_follows_dead (h : List.Forall₂ Follows cs cs') {s : Candidate} (hs : s ∈ cs)
    (hdead : s.isLive = false) : s ∈ cs' := by
  induction h with
  | nil => exact hs
  | cons hab _ ih =>
    rcases List.mem_cons.1 hs with rfl | hs
    · rw [hab.frozen hdead]
      exact List.mem_cons_self
    · exact List.mem_cons_of_mem _ (ih hs)

/-- Those of the pairs of states before and after a turn that pass both tests, read by id
after, are among those whose state before passes the first. -/
theorem map_filter_zip_sublist (h : List.Forall₂ Follows cs cs') (q t : Candidate → Bool) :
    (((cs.zip cs').filter fun x => q x.1 && t x.2).map (·.2.signature.id)).Sublist
      ((cs.filter q).map (·.signature.id)) := by
  induction h with
  | nil => simp
  | @cons a b l₁ l₂ hab _ ih =>
    have hid : b.signature.id = a.signature.id := by rw [hab.descends.signature]
    cases hq : q a
    · simpa [hq] using ih
    · cases ht : t b
      · -- only the state before keeps the candidate
        simpa [hq, ht] using ih.cons a.signature.id
      · simpa [hq, ht, hid] using ih.cons_cons a.signature.id

/-- The ids, after a turn, of the candidates that wanted the entry are theirs before it. -/
theorem idsAt_wanting (h : List.Forall₂ Follows cs cs') :
    idsAt cs' ((List.range cs.length).filter fun i =>
        (cs[i]?.map (·.needsContent name)) = some true) =
      (cs.filter (·.needsContent name)).map (·.signature.id) := by
  unfold idsAt
  rw [List.filterMap_congr fun i _ => getElem?_map_id_of_follows h i]
  exact filterMap_range_filter cs _ _

/-- The ids, after a turn, of the candidates that wanted the entry and were rejected as
unreadable read off the pairs of states before and after it. -/
theorem idsAt_rejected (h : List.Forall₂ Follows cs cs') :
    idsAt cs' (((List.range cs.length).filter fun i =>
        (cs[i]?.map (·.needsContent name)) = some true).filter fun i =>
          (cs'[i]?.map (·.phase)) = some (.rejected .unreadable)) =
      ((cs.zip cs').filter fun x =>
        x.1.needsContent name && decide (x.2.phase = .rejected .unreadable)).map
          (·.2.signature.id) := by
  have hlen : (cs.zip cs').length = cs.length := by simp [h.length_eq]
  -- both sides read the pairs at the positions in range
  have hpair : ∀ i < cs.length, ∃ a b, cs[i]? = some a ∧ cs'[i]? = some b ∧
      (cs.zip cs')[i]? = some (a, b) := by
    intro i hi
    have hi' : i < cs'.length := h.length_eq ▸ hi
    exact ⟨_, _, List.getElem?_eq_getElem hi, List.getElem?_eq_getElem hi',
      List.getElem?_zip_eq_some.2 ⟨List.getElem?_eq_getElem hi, List.getElem?_eq_getElem hi'⟩⟩
  unfold idsAt
  rw [List.filter_filter, ← hlen]
  rw [List.filter_congr fun i hi => ?_, List.filterMap_congr fun i hi => ?_]
  · exact filterMap_range_filter (cs.zip cs') _ _
  · obtain ⟨a, b, ha, hb, hab⟩ := hpair i (hlen ▸ List.mem_range.1 (List.mem_filter.1 hi).1)
    simp [hb, hab]
  · obtain ⟨a, b, ha, hb, hab⟩ := hpair i (hlen ▸ List.mem_range.1 hi)
    simp only [ha, hb, hab, Option.map_some, Option.some.injEq, Bool.decide_eq_true]
    exact Bool.and_comm _ _

/-! ## §4 Every unreadable mark is reported -/

/-- Every candidate that noted an entry unreadable is among the affected of some warning. -/
def Reported (p : Progress) : Prop :=
  ∀ s ∈ p.candidates, s.notedUnreadable = true → ∃ w ∈ p.warnings, s.signature.id ∈ w.affected

/-- One turn keeps every unreadable mark reported: a candidate marked in the turn wanted the
entry, and the turn's warning names it. -/
theorem examineEntry_reported {lib : Library} {config : ScanSettings} {e : Entry} {n : List Nat}
    {p p' : Progress} (hnd : n.Nodup) (h : examineEntry lib config e n p = .ok p')
    (hp : Reported p) : Reported p' := by
  rcases examineEntry_ok h with ⟨-, rfl⟩ | ⟨-, -, -, hcs, hws⟩
  · exact hp
  intro s' hs' hn
  obtain ⟨i, hget⟩ := List.mem_iff_getElem?.1 hs'
  obtain ⟨s, hs, hfs⟩ := forall₂_getElem? (examineEntry_follows h) hget
  rw [hcs] at hget
  cases hf : (openTurn lib config e (liveAt p e.name n) p.candidates).2 with
  | none =>
    -- the turn marked nothing: the mark is an old one
    obtain ⟨s₀, hs₀, hn₀⟩ := openTurn_noted hf hget hn
    rw [hs] at hs₀
    obtain rfl := Option.some.inj hs₀
    obtain ⟨w, hw, hid⟩ := hp s (List.mem_of_getElem? hs) hn₀
    refine ⟨w, ?_, hfs.descends.signature ▸ hid⟩
    rw [hws, hf]
    exact hw
  | some f =>
    by_cases hil : i ∈ liveAt p e.name n
    · -- a candidate that wanted the entry is named by the turn's warning
      refine ⟨warning e.name f (liveAt p e.name n) p'.candidates, by rw [hws, hf]; simp, ?_⟩
      rw [← hcs] at hget
      exact List.mem_filterMap.2 ⟨i, hil, by simp [hget]⟩
    · -- a candidate the turn passed over is unchanged and keeps the warning it had
      have hsame : (openTurn lib config e (liveAt p e.name n) p.candidates).1[i]? =
          p.candidates[i]? := openTurn_getElem?_of_not_mem (hnd.filter _) hil
      rw [hget] at hsame
      obtain ⟨w, hw, hid⟩ := hp s' (List.mem_of_getElem? hsame.symm) hn
      exact ⟨w, by rw [hws, hf]; simp [hw], hid⟩

theorem namePass_unmarked :
    ∀ (es : List Entry) (cs : List Candidate), (∀ s ∈ cs, s.notedUnreadable = false) →
      ∀ s ∈ (namePass es cs).1, s.notedUnreadable = false
  | [], _, h => h
  | e :: es, cs, h => by
    have heq : (namePass (e :: es) cs).1 = (namePass es (noteName e.name cs).1).1 := rfl
    rw [heq]
    refine namePass_unmarked es _ fun s hs => ?_
    rw [noteName_fst] at hs
    obtain ⟨s₀, hs₀, rfl⟩ := List.mem_map.1 hs
    rw [notedUnreadable_noteName]
    exact h s₀ hs₀

section Run

variable {lib : Library} {config : ScanSettings} {c : Container}

theorem startProgress_unmarked :
    ∀ s ∈ (startProgress lib c).candidates, s.notedUnreadable = false := by
  intro s hs
  obtain ⟨s₀, hs₀, rfl⟩ := List.mem_map.1 hs
  rw [notedUnreadable_settleNames]
  refine namePass_unmarked c.entries _ (fun t ht => ?_) s₀ hs₀
  obtain ⟨sig, -, rfl⟩ := List.mem_map.1 ht
  exact notedUnreadable_start sig c.name

/-- The run lemma of the reports: as the pass reaches any entry, every unreadable mark is
reported. -/
theorem progressBefore_reported :
    ∀ (j : Nat) {p : Progress}, progressBefore lib config c j = .ok p → Reported p := by
  refine progressBefore_induction ?_ ?_ fun _ _ _ _ h => h
  · intro s hs hn
    rw [startProgress_unmarked s hs] at hn
    cases hn
  · intro j e n p p' he hn _ _ hstep ih
    exact examineEntry_reported (neededBy_covers lib c he hn).1.nodup hstep ih

/-! ## §5 The warnings of a run -/

/-- The warning `w` is the one the turn of the entry at index `j` leaves: it names the entry and
the fault the turn met; its affected ids are those of the candidates that were live and wanted
the entry as the pass reached it, in order, and its rejected ids those of them that the turn
left rejected as unreadable. -/
def WarnsAt (lib : Library) (config : ScanSettings) (c : Container) (w : EntryFailure)
    (j : Nat) : Prop :=
  ∃ e p p', c.entries[j]? = some e ∧ progressBefore lib config c j = .ok p ∧
    progressBefore lib config c (j + 1) = .ok p' ∧ w.entry = e.name ∧
    turnFault lib config e p = some w.fault ∧
    w.affected = (p.candidates.filter (·.needsContent e.name)).map (·.signature.id) ∧
    w.rejected = ((p.candidates.zip p'.candidates).filter fun x =>
      x.1.needsContent e.name && decide (x.2.phase = .rejected .unreadable)).map
        (·.2.signature.id)

/-- The run lemma of the warnings: as the pass reaches an entry, its warnings, oldest first,
are those of the entries before it whose turn met a fault, one each, in entry order. -/
theorem progressBefore_warnings :
    ∀ (j : Nat) {p : Progress}, progressBefore lib config c j = .ok p →
      List.Forall₂ (WarnsAt lib config c) p.warnings.reverse
        ((List.range j).filter (failsAt lib config c)) := by
  refine progressBefore_induction .nil ?_ ?_
  · intro j e n p p' he hn hp h hstep ih
    have hfail : failsAt lib config c j = (p.wants e.name && (turnFault lib config e p).isSome) := by
      simp [failsAt, hp, he]
    rw [List.range_succ, List.filter_append]
    rcases examineEntry_reached hp he hn hstep with ⟨hw, rfl⟩ | ⟨hw, -, -, -, hws⟩
    · -- the entry stays closed and leaves no warning
      simpa [hfail, hw] using ih
    · rw [openTurn_wanting] at hws
      cases hf : turnFault lib config e p with
      | none =>
        -- the turn met no fault and leaves no warning
        simpa [hfail, hw, hf, hws] using ih
      | some f =>
        -- the turn's fault leaves one warning, after the older ones
        have hfol := examineEntry_follows hstep
        have hwarn : WarnsAt lib config c
            (warning e.name f (p.wanting e.name) p'.candidates) j :=
          ⟨e, p, p', he, hp, h, rfl, hf, idsAt_wanting hfol, idsAt_rejected hfol⟩
        simp only [hws, hfail, hw, hf, Option.map_some, Option.toList_some, List.cons_append,
          List.nil_append, List.reverse_cons, Bool.true_and, Option.isSome_some,
          List.filter_singleton]
        exact List.rel_append ih (.cons hwarn .nil)
  · intro j p hj _ ih
    have hfail : failsAt lib config c j = false := by
      simp [failsAt, List.getElem?_eq_none_iff.2 hj]
    simpa [List.range_succ, List.filter_append, hfail] using ih

/-- The candidates as the pass reaches an entry are states of the library's candidates for the
container's format, one each, in order. -/
theorem progressBefore_signatures {j : Nat} {p : Progress}
    (hp : progressBefore lib config c j = .ok p) :
    List.Forall₂ (fun s t => t.signature = s) (lib.candidates c.kind) p.candidates := by
  have hstart : List.Forall₂ (fun s t => t.signature = s) (lib.candidates c.kind)
      ((lib.candidates c.kind).map fun s => Candidate.start s c.name) :=
    List.forall₂_map_right_iff.2 (List.forall₂_same.2 fun _ _ => rfl)
  have hsettled : List.Forall₂ Descends
      ((lib.candidates c.kind).map fun s => Candidate.start s c.name)
      (startProgress lib c).candidates :=
    forall₂_trans (fun _ _ _ h₁ h₂ => h₁.trans h₂)
      (namePass_named c.name c.entries (start_named lib c)).2.1
      (List.forall₂_map_right_iff.2
        (List.forall₂_same.2 fun s _ => Candidate.descends_settleNames s))
  have hdesc := forall₂_trans (fun _ _ _ h₁ (h₂ : Follows _ _) => h₁.trans h₂.descends) hsettled
    (progressBefore_follows j hp)
  exact forall₂_trans (R := fun s t => t.signature = s) (S := Descends)
    (T := fun s t => t.signature = s) (fun _ _ _ h₁ h₂ => h₂.signature.trans h₁) hstart hdesc

/-- Over a library with distinct signature ids, the candidates keep them, in ascending order. -/
theorem progressBefore_ids_ascending (hlib : (lib.signatures.map (·.id)).Nodup) {j : Nat}
    {p : Progress} (hp : progressBefore lib config c j = .ok p) :
    (p.candidates.map (·.signature.id)).Pairwise (· < ·) := by
  rw [map_eq_of_forall₂ (fun _ _ h => by rw [h]) (progressBefore_signatures hp)]
  exact Library.candidates_ascending hlib c.kind

namespace WarnsAt

variable {w : EntryFailure} {j : Nat}

theorem affected_ascending (hlib : (lib.signatures.map (·.id)).Nodup)
    (h : WarnsAt lib config c w j) : w.affected.Pairwise (· < ·) := by
  obtain ⟨e, p, p', -, hp, -, -, -, haff, -⟩ := h
  rw [haff]
  exact (progressBefore_ids_ascending hlib hp).sublist (List.filter_sublist.map _)

theorem rejected_sublist (h : WarnsAt lib config c w j) : w.rejected.Sublist w.affected := by
  obtain ⟨e, p, p', -, hp, hp', -, -, haff, hrej⟩ := h
  rw [haff, hrej]
  exact map_filter_zip_sublist (progressBefore_follows_of_le hp (j + 1) (Nat.le_succ j) hp')
    (·.needsContent e.name) fun s => decide (s.phase = .rejected .unreadable)

/-- A candidate that a warning names as rejected has that verdict at the end of the pass: it
was rejected as unreadable, and a verdict is never changed. -/
theorem rejected_final (h : WarnsAt lib config c w j) (hj : j < c.entries.length) {q : Progress}
    (hq : progressBefore lib config c c.entries.length = .ok q) :
    ∀ id ∈ w.rejected,
      ∃ s ∈ q.candidates, s.signature.id = id ∧ (s.conclude).2 = .rejected .unreadable := by
  obtain ⟨e, p, p', -, -, hp', -, -, -, hrej⟩ := h
  intro id hid
  rw [hrej] at hid
  obtain ⟨⟨s, s'⟩, hx, rfl⟩ := List.mem_map.1 hid
  obtain ⟨hzip, hP⟩ := List.mem_filter.1 hx
  have hph : s'.phase = .rejected .unreadable := by
    simp only [Bool.and_eq_true, decide_eq_true_eq] at hP
    exact hP.2
  have hdead : s'.isLive = false := by simp [Candidate.isLive, hph, Phase.isTerminal]
  refine ⟨s', mem_of_follows_dead (progressBefore_follows_of_le hp' _ hj hq)
    (List.of_mem_zip hzip).2 hdead, rfl, ?_⟩
  simp [Candidate.conclude, hdead, hph]

end WarnsAt

end Run

end Identify

open Identify in
/-- Every read failure is reported consistently with the verdict. In every run of
identification that succeeds, over a library whose signatures have distinct ids (as those of
every consistent catalog do): there is one warning per opened entry whose turn met a fault (it
could not be opened, or some candidate's evaluation of it returned a fault), in entry order; a
warning's affected ids are those of the candidates that were live and wanted the entry as it
was opened, ascending, and its rejected ids those of them that the turn left rejected as
unreadable, hence among the affected and never matched; and every candidate whose final
verdict is a rejection as unreadable is among the affected of some warning. -/
theorem warnings_agree_with_verdicts (lib : Library) (hlib : (lib.signatures.map (·.id)).Nodup)
    (config : ScanSettings) (c : Container) {r : Identification}
    (hr : identify lib config c = .ok r) :
    List.Forall₂ (WarnsAt lib config c) r.warnings
      ((List.range c.entries.length).filter (failsAt lib config c)) ∧
    (∀ w ∈ r.warnings, w.affected.Pairwise (· < ·) ∧ w.rejected.Sublist w.affected ∧
      ∀ id ∈ w.rejected, id ∉ r.matched) ∧
    ∀ p, progressBefore lib config c c.entries.length = .ok p →
      ∀ s ∈ p.candidates, (s.conclude).2 = .rejected .unreadable →
        ∃ w ∈ r.warnings, s.signature.id ∈ w.affected := by
  obtain ⟨q, hq, rfl⟩ := identify_eq_ok.1 hr
  have hwarn := progressBefore_warnings c.entries.length hq
  refine ⟨hwarn, fun w hw => ?_, fun p hp s hs hconc => ?_⟩
  · obtain ⟨j, hj, hW⟩ := exists_mem_of_forall₂ hwarn w hw
    refine ⟨hW.affected_ascending hlib, hW.rejected_sublist, fun id hid hmatched => ?_⟩
    -- the rejected candidate keeps its verdict, and no other candidate has its id
    obtain ⟨s, hs, rfl, hconc⟩ :=
      hW.rejected_final (List.mem_range.1 (List.mem_filter.1 hj).1) hq id hid
    obtain ⟨t, ht, hteq⟩ := List.mem_map.1 hmatched
    obtain ⟨htq, htm⟩ := List.mem_filter.1 ht
    obtain rfl := List.inj_on_of_nodup_map (progressBefore_ids_ascending hlib hq).nodup htq hs hteq
    simp [hconc] at htm
  · -- the final verdict comes from a mark, and every mark is reported
    rw [hq] at hp
    obtain rfl := Except.ok.inj hp
    obtain ⟨w, hw, hid⟩ := progressBefore_reported _ hq s hs
      (Candidate.notedUnreadable_of_conclude hconc)
    exact ⟨w, List.mem_reverse.2 hw, hid⟩

open Identify in
/-- An archive whose one entry cannot be opened, and a signature that needs that entry to begin
with a zero byte: the entry's turn leaves one warning, which names the signature as affected
and rejected. -/
theorem warnings_agree_with_verdicts_unopened :
    let lib : Library :=
      { signatures := [{ id := 1, container := .zip, description := none, files :=
          [{ path := .exact "a", presence := .required, binary := [[0]] }] }]
        patterns := [⟨"^ 00", .atStart, [.literal [0]]⟩]
        formats := []
        prefilter := none }
    let archive : Container :=
      { kind := .zip, entries := [⟨"a", .error (.unreadable "broken")⟩] }
    (lib.signatures.map (·.id)).Nodup ∧ ∃ r, identify lib {} archive = .ok r ∧
      List.Forall₂ (WarnsAt lib {} archive) r.warnings
        ((List.range archive.entries.length).filter (failsAt lib {} archive)) ∧
      (∀ w ∈ r.warnings, w.affected.Pairwise (· < ·) ∧ w.rejected.Sublist w.affected ∧
        ∀ id ∈ w.rejected, id ∉ r.matched) ∧
      ∀ p, progressBefore lib {} archive archive.entries.length = .ok p →
        ∀ s ∈ p.candidates, (s.conclude).2 = .rejected .unreadable →
          ∃ w ∈ r.warnings, s.signature.id ∈ w.affected := by
  intro lib archive
  have hlib : (lib.signatures.map (·.id)).Nodup := by decide
  have hok : (identify lib {} archive).toBool = true := by decide +kernel
  match h : identify lib {} archive, hok with
  | .ok r, _ => exact ⟨hlib, r, rfl, warnings_agree_with_verdicts lib hlib {} archive h⟩

end ContainerProbe
