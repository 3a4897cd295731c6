import Mathlib
import ContainerProbe.Proofs.Requirement
import ContainerProbe.Proofs.Prefilter

/-!
# Verdicts on an entry are right

An entry is opened once, and every candidate that needs it asks its patterns of the same open
entry, which remembers each verdict. Over a feed that may fail part-way the entry's verdicts
are still right: each is the pattern's verdict on the scan window of every byte string the
feed's delivery can begin. When the feed ends cleanly and every pattern id is in the table,
the entry answers every question.

A declared file that wants the entry takes the verdict of its binary signatures: a required
file counts an entry that satisfies it, and a verdict the candidate cannot survive (a required
file with an exact path that is not satisfied, an absent file that is) ends the entry's turn
with a rejection.

## Main statements

* `OpenEntry.evaluate_faithful`, `OpenEntry.anyMatch_faithful`: answers are right, and the
  entry stays faithful.
* `Candidate.noteContentFiles_judged`: after an entry, a prefix of the files took their
  verdicts and the rest are as they were; a settled entry was taken by every file, and a
  rejection comes from a file that cannot survive its verdict.
-/

namespace ContainerProbe

/-- The answer `x` decides `v` for the feed `F`: a verdict it gives is `v D` for every
completion `D` of the feed. -/
def Feed.Decides (F : Feed) (x : Except Fault Bool) (v : ByteArray → Bool) : Prop :=
  ∀ b, x = .ok b → ∀ D, F.Completes D → b = v D

theorem Library.verdict_eq {lib : Library} {limit : Option Nat} {id : Nat} {p : Pattern}
    (hp : lib.pattern? id = some p) {D : ByteArray} {b : Bool}
    (h : (p.evaluate none (Window.make D limit)).1 = .ok b) : lib.verdict limit D id = b := by
  simp [Library.verdict, hp, h]

/-! ## §1 Faithful entries -/

namespace OpenEntry

/-- An entry opened over the feed `F`, running its patterns without the prefilter, whose
remembered verdicts are right for every completion of the feed. -/
structure Faithful (lib : Library) (F : Feed) (limit : Option Nat) (c : OpenEntry Stream) :
    Prop where
  stream : c.source.Valid ∧ c.source.feed = F ∧ c.source.limit = limit
  unfiltered : c.usePrefilter = false
  results : ∀ id b, c.results.lookup id = some b → ∀ D, F.Completes D →
    b = lib.verdict limit D id

variable {lib : Library} {F : Feed} {limit : Option Nat}

theorem faithful_make (name : String) (F : Feed) (limit : Option Nat) :
    (make name (Stream.make F limit) false).Faithful lib F limit :=
  ⟨⟨Stream.make_valid F limit, rfl, rfl⟩, rfl, fun _ _ h => by cases h⟩

variable (hw : windowOf limit ≤ Size.max)
include hw

/-- One pattern asked of a faithful entry: the answer is right, the entry stays faithful, and
over a clean feed a pattern of the table gets a verdict. -/
theorem evaluate_faithful {c : OpenEntry Stream} (h : c.Faithful lib F limit) (id : Nat) :
    (c.evaluate lib id).2.Faithful lib F limit ∧
      F.Decides (c.evaluate lib id).1 (fun D => lib.verdict limit D id) ∧
      (F.failure = none → id < lib.patterns.length → ∃ b, (c.evaluate lib id).1 = .ok b) := by
  cases hlook : c.results.lookup id with
  | some r =>
    -- a remembered verdict
    have he : c.evaluate lib id = (.ok r, c) := by simp [evaluate, hlook]
    rw [he]
    refine ⟨h, fun b hb D hD => ?_, fun _ _ => ⟨r, rfl⟩⟩
    obtain rfl := Except.ok.inj hb
    exact h.results id r hlook D hD
  | none =>
    cases hp : lib.pattern? id with
    | none =>
      have he : c.evaluate lib id = (.error (.definition (.unknownPattern id)), c) := by
        simp [evaluate, hlook, hp]
      rw [he]
      refine ⟨h, (fun b hb => by cases hb), fun _ hid => ?_⟩
      simp [Library.pattern?, hid] at hp
    | some p =>
      rw [evaluate_eq_record hlook hp (startsFor_unfiltered lib id h.unfiltered)]
      have hkeep := Pattern.evaluate_keeps (Stream.keeps F limit hw) p none h.stream
      have hright : ∀ b, (p.evaluate none c.source).1 = .ok b → ∀ D, F.Completes D →
          b = lib.verdict limit D id := fun b hb D hD =>
        (Library.verdict_eq hp
          ((Pattern.evaluate_of_view (Stream.view F limit hw hD) p none h.stream).2 b hb)).symm
      rcases hev : p.evaluate none c.source with ⟨x, s⟩
      rw [hev] at hkeep hright
      cases x with
      | error e =>
        refine ⟨⟨hkeep, h.unfiltered, h.results⟩, (fun b hb => by cases hb), fun hF _ => ?_⟩
        obtain ⟨b, hb⟩ := Pattern.evaluate_ok_of_view (Stream.keeps F limit hw)
          (Stream.neverFails F limit hw hF) p none h.stream
        rw [hev] at hb
        cases hb
      | ok b =>
        refine ⟨⟨hkeep, h.unfiltered, fun id' b' hb' D hD => ?_⟩,
          fun b' hb' D hD => ?_, fun _ _ => ⟨b, rfl⟩⟩
        · -- the new verdict is remembered in front of the old ones
          by_cases hid : id' = id
          · subst hid
            simp only [recordVerdict, List.lookup_cons, beq_self_eq_true] at hb'
            obtain rfl := Option.some.inj hb'
            exact hright b rfl D hD
          · have hold : ((id, b) :: c.results).lookup id' = c.results.lookup id' := by
              rw [List.lookup_cons, beq_false_of_ne hid]
            exact h.results id' b' (hold ▸ hb') D hD
        · obtain rfl := Except.ok.inj hb'
          exact hright b rfl D hD

/-- A conjunction asked of a faithful entry: the answer is right, the entry stays faithful,
and over a clean feed a conjunction of table patterns gets a verdict. -/
theorem allMatch_faithful {c : OpenEntry Stream} (h : c.Faithful lib F limit) (ids : List Nat) :
    (c.allMatch lib ids).2.Faithful lib F limit ∧
      F.Decides (c.allMatch lib ids).1 (fun D => ids.all (lib.verdict limit D)) ∧
      (F.failure = none → (∀ id ∈ ids, id < lib.patterns.length) →
        ∃ b, (c.allMatch lib ids).1 = .ok b) := by
  induction ids generalizing c with
  | nil =>
    refine ⟨h, fun b hb D _ => ?_, fun _ _ => ⟨true, rfl⟩⟩
    obtain rfl := Except.ok.inj hb
    rfl
  | cons id rest ih =>
    obtain ⟨hc1, hright, htotal⟩ := evaluate_faithful hw h id
    rcases hev : c.evaluate lib id with ⟨x, c1⟩
    rw [hev] at hc1 hright htotal
    cases x with
    | error e =>
      have he : c.allMatch lib (id :: rest) = (.error e, c1) := by simp [allMatch, hev]
      rw [he]
      refine ⟨hc1, (fun b hb => by cases hb), fun hF hids => ?_⟩
      obtain ⟨b, hb⟩ := htotal hF (hids id List.mem_cons_self)
      cases hb
    | ok b =>
      cases b with
      | false =>
        -- the first pattern that fails decides
        have he : c.allMatch lib (id :: rest) = (.ok false, c1) := by simp [allMatch, hev]
        rw [he]
        refine ⟨hc1, fun b hb D hD => ?_, fun _ _ => ⟨false, rfl⟩⟩
        obtain rfl := Except.ok.inj hb
        simp [← hright false rfl D hD]
      | true =>
        have he : c.allMatch lib (id :: rest) = c1.allMatch lib rest := by simp [allMatch, hev]
        rw [he]
        obtain ⟨hc2, hright2, htotal2⟩ := ih hc1
        refine ⟨hc2, fun b hb D hD => ?_,
          fun hF hids => htotal2 hF (fun i hi => hids i (List.mem_cons_of_mem _ hi))⟩
        rw [hright2 b hb D hD]
        simp [← hright true rfl D hD]

/-- A file's alternatives asked of a faithful entry: the answer is whether the completion
satisfies them, the entry stays faithful, and over a clean feed alternatives of table patterns
get a verdict. -/
theorem anyMatch_faithful {c : OpenEntry Stream} (h : c.Faithful lib F limit)
    (alts : List (List Nat)) :
    (c.anyMatch lib alts).2.Faithful lib F limit ∧
      F.Decides (c.anyMatch lib alts).1
        (fun D => alts.any fun conj => conj.all (lib.verdict limit D)) ∧
      (F.failure = none → (∀ conj ∈ alts, ∀ id ∈ conj, id < lib.patterns.length) →
        ∃ b, (c.anyMatch lib alts).1 = .ok b) := by
  induction alts generalizing c with
  | nil =>
    refine ⟨h, fun b hb D _ => ?_, fun _ _ => ⟨false, rfl⟩⟩
    obtain rfl := Except.ok.inj hb
    rfl
  | cons conj rest ih =>
    obtain ⟨hc1, hright, htotal⟩ := allMatch_faithful hw h conj
    rcases hall : c.allMatch lib conj with ⟨x, c1⟩
    rw [hall] at hc1 hright htotal
    cases x with
    | error e =>
      have he : c.anyMatch lib (conj :: rest) = (.error e, c1) := by simp [anyMatch, hall]
      rw [he]
      refine ⟨hc1, (fun b hb => by cases hb), fun hF hids => ?_⟩
      obtain ⟨b, hb⟩ := htotal hF (hids conj List.mem_cons_self)
      cases hb
    | ok b =>
      cases b with
      | true =>
        -- the first alternative that holds decides
        have he : c.anyMatch lib (conj :: rest) = (.ok true, c1) := by simp [anyMatch, hall]
        rw [he]
        refine ⟨hc1, fun b hb D hD => ?_, fun _ _ => ⟨true, rfl⟩⟩
        obtain rfl := Except.ok.inj hb
        simp [← hright true rfl D hD]
      | false =>
        have he : c.anyMatch lib (conj :: rest) = c1.anyMatch lib rest := by
          simp [anyMatch, hall]
        rw [he]
        obtain ⟨hc2, hright2, htotal2⟩ := ih hc1
        refine ⟨hc2, fun b hb D hD => ?_,
          fun hF hids => htotal2 hF (fun c hc => hids c (List.mem_cons_of_mem _ hc))⟩
        rw [hright2 b hb D hD]
        simp [← hright false rfl D hD]

end OpenEntry

/-! ## §2 Files taking an entry's verdicts -/

namespace FileTally

/-- A file after an entry that gives it the verdict `v`: a required file that wanted the entry
counts it when satisfied. -/
def record (name : String) (v : Bool) (f : FileTally) : FileTally :=
  if f.wantsEntry name = true ∧ f.requirement.presence = .required ∧ v = true then
    { f with passed := f.passed + 1 }
  else f

/-- Whether the candidate survives a wanted entry that gives the file the verdict `v`: a
required file survives a satisfying entry, and any entry when its path is a glob; a file
declared absent survives an entry that does not satisfy it. -/
def admits (f : FileTally) (v : Bool) : Bool :=
  match f.requirement.presence with
  | .required => v || f.bound.isWildcard
  | .absent => !v

end FileTally

namespace Candidate

/-- What showing an entry with bytes `D` to the files `files` may end in: the entry stays
faithful; a prefix of the files recorded their verdicts, each surviving its own, and the rest
are as they were; when the entry settles, every file recorded its verdict and each one that
wanted the entry survives it; a rejection comes from a file that wanted the entry and does not
survive its verdict; and over a clean feed naming only table patterns the entry is never
unreadable. -/
structure Judged (lib : Library) (F : Feed) (limit : Option Nat) (name : String)
    (D : ByteArray) (files : List FileTally)
    (r : List FileTally × ContentOutcome × OpenEntry Stream) : Prop where
  faithful : r.2.2.Faithful lib F limit
  recorded : ∃ k, r.1 = (files.take k).map
      (fun f => f.record name (lib.satisfies limit f.requirement D)) ++ files.drop k ∧
    ∀ f ∈ files.take k, f.wantsEntry name = true →
      f.admits (lib.satisfies limit f.requirement D) = true
  settled : r.2.1 = .settled →
    r.1 = files.map (fun f => f.record name (lib.satisfies limit f.requirement D)) ∧
      ∀ f ∈ files, f.wantsEntry name = true →
        f.admits (lib.satisfies limit f.requirement D) = true
  rejects : ∀ rej, r.2.1 = .rejects rej → ∃ f ∈ files, f.wantsEntry name = true ∧
    f.admits (lib.satisfies limit f.requirement D) = false
  readable : F.failure = none →
    (∀ f ∈ files, f.requirement.NamesBelow lib.patterns.length) → ∀ e, r.2.1 ≠ .fails e

section Judged

variable {lib : Library} {F : Feed} {limit : Option Nat} {name : String} {D : ByteArray}

/-- A file that records its verdict and lets the candidate go on, in front of files already
judged. -/
theorem Judged.cons {f g : FileTally} {rest rest' : List FileTally} {o : ContentOutcome}
    {c' : OpenEntry Stream} (h : Judged lib F limit name D rest (rest', o, c'))
    (hg : g = f.record name (lib.satisfies limit f.requirement D))
    (hadmits : f.wantsEntry name = true → f.admits (lib.satisfies limit f.requirement D) = true) :
    Judged lib F limit name D (f :: rest) (g :: rest', o, c') where
  faithful := h.faithful
  recorded := by
    obtain ⟨k, hk, hadm⟩ := h.recorded
    dsimp only at hk
    subst hk
    refine ⟨k + 1, by simp [hg], ?_⟩
    rintro f' hf' hwant
    rw [List.take_succ_cons, List.mem_cons] at hf'
    rcases hf' with rfl | hf'
    · exact hadmits hwant
    · exact hadm f' hf' hwant
  settled := fun ho => by
    obtain ⟨hmap, hall⟩ := h.settled ho
    dsimp only at hmap
    refine ⟨by simp [hmap, hg], ?_⟩
    rintro f' (_ | ⟨_, hf'⟩) hwant
    · exact hadmits hwant
    · exact hall f' hf' hwant
  rejects := fun rej ho => by
    obtain ⟨f', hf', hwant, hno⟩ := h.rejects rej ho
    exact ⟨f', List.mem_cons_of_mem _ hf', hwant, hno⟩
  readable := fun hF hnames => h.readable hF (fun f' hf' => hnames f' (List.mem_cons_of_mem _ hf'))

/-- A file whose verdict ends the entry's turn, leaving every file as it was. -/
theorem Judged.stop {f : FileTally} {rest : List FileTally} {o : ContentOutcome}
    {c' : OpenEntry Stream} (hc : c'.Faithful lib F limit) (ho : o ≠ .settled)
    (hrej : ∀ rej, o = .rejects rej →
      f.wantsEntry name = true ∧ f.admits (lib.satisfies limit f.requirement D) = false)
    (hread : F.failure = none → f.requirement.NamesBelow lib.patterns.length →
      ∀ e, o ≠ .fails e) :
    Judged lib F limit name D (f :: rest) (f :: rest, o, c') where
  faithful := hc
  recorded := ⟨0, by simp, by simp⟩
  settled := fun h => absurd h ho
  rejects := fun rej h => ⟨f, List.mem_cons_self, hrej rej h⟩
  readable := fun hF hnames => hread hF (hnames f List.mem_cons_self)

variable (hw : windowOf limit ≤ Size.max) (hD : F.Completes D)
include hw hD

/-- Showing an entry to files is judged: see `Judged`. -/
theorem noteContentFiles_judged (name : String) (files : List FileTally) {c : OpenEntry Stream}
    (hc : c.Faithful lib F limit) :
    Judged lib F limit name D files (noteContentFiles lib name files c) := by
  induction files generalizing c with
  | nil => exact ⟨hc, ⟨0, rfl, by simp⟩, fun _ => ⟨rfl, by simp⟩, (fun _ h => by cases h),
      (fun _ _ _ h => by cases h)⟩
  | cons f rest ih =>
    by_cases hwant : f.wantsEntry name = true
    · obtain ⟨hc1, hright, htotal⟩ := OpenEntry.anyMatch_faithful hw hc f.requirement.binary
      rcases hany : c.anyMatch lib f.requirement.binary with ⟨x, c1⟩
      rw [hany] at hc1 hright htotal
      cases x with
      | error e =>
        have he : noteContentFiles lib name (f :: rest) c = (f :: rest, .fails e, c1) := by
          simp [noteContentFiles, hwant, hany]
        rw [he]
        refine Judged.stop hc1 (fun h => by cases h) (fun _ h => by cases h) fun hF hnames _ h => ?_
        obtain ⟨b, hb⟩ := htotal hF hnames
        cases hb
      | ok b =>
        -- the verdict is the satisfaction of the file by the entry's bytes
        have hb : b = lib.satisfies limit f.requirement D := hright b rfl D hD
        rcases hrest : noteContentFiles lib name rest c1 with ⟨rest', o, c''⟩
        have hjudged : Judged lib F limit name D rest (rest', o, c'') := hrest ▸ ih hc1
        cases hp : f.requirement.presence with
        | required =>
          cases b with
          | true =>
            have he : noteContentFiles lib name (f :: rest) c =
                ({ f with passed := f.passed + 1 } :: rest', o, c'') := by
              simp [noteContentFiles, hwant, hany, hp, hrest]
            rw [he]
            exact hjudged.cons (by simp [FileTally.record, hwant, hp, ← hb])
              (fun _ => by simp [FileTally.admits, hp, ← hb])
          | false =>
            by_cases hg : f.bound.isWildcard = true
            · have he : noteContentFiles lib name (f :: rest) c = (f :: rest', o, c'') := by
                simp [noteContentFiles, hwant, hany, hp, hrest, hg]
              rw [he]
              exact hjudged.cons (by simp [FileTally.record, ← hb])
                (fun _ => by simp [FileTally.admits, hp, hg])
            · have he : noteContentFiles lib name (f :: rest) c =
                  (f :: rest, .rejects .binaryMismatch, c1) := by
                simp [noteContentFiles, hwant, hany, hp, hg]
              rw [he]
              refine Judged.stop hc1 (fun h => by cases h) (fun _ _ => ⟨hwant, ?_⟩)
                (fun _ _ _ h => by cases h)
              simp [FileTally.admits, hp, ← hb, hg]
        | absent =>
          cases b with
          | true =>
            have he : noteContentFiles lib name (f :: rest) c =
                (f :: rest, .rejects .absentEntryPresent, c1) := by
              simp [noteContentFiles, hwant, hany, hp]
            rw [he]
            refine Judged.stop hc1 (fun h => by cases h) (fun _ _ => ⟨hwant, ?_⟩)
              (fun _ _ _ h => by cases h)
            simp [FileTally.admits, hp, ← hb]
          | false =>
            have he : noteContentFiles lib name (f :: rest) c = (f :: rest', o, c'') := by
              simp [noteContentFiles, hwant, hany, hp, hrest]
            rw [he]
            exact hjudged.cons (by simp [FileTally.record, hp])
              (fun _ => by simp [FileTally.admits, hp, ← hb])
    · -- a file that does not want the entry is passed over
      rcases hrest : noteContentFiles lib name rest c with ⟨rest', o, c'⟩
      have he : noteContentFiles lib name (f :: rest) c = (f :: rest', o, c') := by
        simp [noteContentFiles, hwant, hrest]
      rw [he]
      exact (hrest ▸ ih hc).cons (by simp [FileTally.record, hwant]) (fun h => absurd h hwant)

end Judged

end Candidate

end ContainerProbe
