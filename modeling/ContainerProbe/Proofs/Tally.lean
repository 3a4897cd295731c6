import Mathlib
import ContainerProbe.Proofs.Content

/-!
# A candidate's verdict follows what its signature asks

A candidate keeps, for each declared file, counters over the entries seen so far. This module
states what the counters promise and shows that every step of identification keeps the
promise, one candidate at a time.

* A file's counters promise (`FileTally.Sound`), over the entries `done` already shown: a
  required glob that passed was satisfied by one of them; any other required file with binary
  signatures passed each entry its path accepts, and each satisfied it; no entry satisfied a
  file declared absent. When every entry was read, a required glob also passed once some
  entry satisfied it (`FileTally.Complete`).
* The name pass counts, for every file, the entries its path accepts, and rejects a candidate
  only when a file declared absent without binary signatures is present (`Candidate.Named`).
* After the name pass, each entry takes one turn with each candidate (`Candidate.Turn`): the
  candidate is passed over when it wants nothing of the entry, notes the entry as unreadable
  when it cannot be opened, or is shown its content.
* `Candidate.Tracks` gathers what holds of a candidate after any number of turns; its final
  verdict is then a match only for a signature that holds, and, when every entry was read, for
  every signature that holds.

## Main statements

* `Candidate.Named.settle`: a candidate settled after the name pass is tracked.
* `Candidate.Tracks.turn`: every turn keeps a candidate tracked.
* `Candidate.Tracks.conclude_matched`, `Candidate.Tracks.conclude_of_holds`: the final verdict
  of a tracked candidate.
-/

namespace ContainerProbe

/-! ## §1 What a file's counters promise -/

namespace FileTally

variable {lib : Library} {limit : Option Nat} {name : String} {D : ByteArray}
  {f : FileTally} {done : List (String × ByteArray)}

/-- The declared file and its resolved path: the part of a file's state no step changes. -/
def decl (f : FileTally) : DeclaredFile × ResolvedPath := (f.requirement, f.bound)

theorem wantsEntry_iff : f.wantsEntry name = true ↔
    f.bound.accepts name = true ∧ f.requirement.hasBinary = true ∧
      (f.requirement.presence = .required → f.bound.isWildcard = true → f.passed = 0) := by
  unfold wantsEntry awaitsContent
  cases f.requirement.presence <;> cases f.bound.isWildcard <;> simp

@[simp] theorem record_requirement (v : Bool) : (f.record name v).requirement = f.requirement := by
  unfold record
  split <;> rfl

@[simp] theorem record_bound (v : Bool) : (f.record name v).bound = f.bound := by
  unfold record
  split <;> rfl

@[simp] theorem record_seen (v : Bool) : (f.record name v).seen = f.seen := by
  unfold record
  split <;> rfl

@[simp] theorem record_decl (v : Bool) : (f.record name v).decl = f.decl := by
  simp [decl]

theorem record_passed (v : Bool) : (f.record name v).passed =
    if f.wantsEntry name = true ∧ f.requirement.presence = .required ∧ v = true then
      f.passed + 1
    else f.passed := by
  unfold record
  split <;> rfl

/-- What a file's counters promise about the entries `done` already shown, with their bytes:
a required glob that passed was satisfied by one of them; any other required file with binary
signatures passed each one its path accepts, and each satisfied it; and none satisfied a file
declared absent. -/
structure Sound (lib : Library) (limit : Option Nat) (done : List (String × ByteArray))
    (f : FileTally) : Prop where
  glob : f.requirement.presence = .required → f.bound.isWildcard = true → 0 < f.passed →
    ∃ e ∈ done, f.bound.accepts e.1 = true ∧ lib.satisfies limit f.requirement e.2 = true
  exact : f.requirement.presence = .required → f.requirement.hasBinary = true →
    f.bound.isWildcard = false →
      f.passed = (done.filter fun e => f.bound.accepts e.1).length ∧
        ∀ e ∈ done, f.bound.accepts e.1 = true → lib.satisfies limit f.requirement e.2 = true
  absent : f.requirement.presence = .absent → f.requirement.hasBinary = true →
    ∀ e ∈ done, f.bound.accepts e.1 = true → lib.satisfies limit f.requirement e.2 = false

/-- What a required glob's counter promises once every entry shown was read: it passed when
one of the entries `done` satisfied it. -/
def Complete (lib : Library) (limit : Option Nat) (done : List (String × ByteArray))
    (f : FileTally) : Prop :=
  f.requirement.presence = .required → f.requirement.hasBinary = true →
    f.bound.isWildcard = true →
    (∃ e ∈ done, f.bound.accepts e.1 = true ∧ lib.satisfies limit f.requirement e.2 = true) →
    0 < f.passed

theorem sound_nil (h : f.passed = 0) : f.Sound lib limit [] :=
  ⟨fun _ _ hpos => absurd h (Nat.pos_iff_ne_zero.1 hpos), fun _ _ _ => ⟨by simp [h], by simp⟩,
    by simp⟩

theorem complete_nil : f.Complete lib limit [] := by
  rintro _ _ _ ⟨_, h, _⟩
  cases h

/-- A file that records the verdict of an entry it survives keeps its promise. -/
theorem Sound.record (h : f.Sound lib limit done)
    (hadm : f.wantsEntry name = true → f.admits (lib.satisfies limit f.requirement D) = true) :
    (f.record name (lib.satisfies limit f.requirement D)).Sound lib limit
      (done ++ [(name, D)]) := by
  constructor
  · -- a glob that passed now passed before, or on this entry
    intro hp hg hpos
    simp only [record_requirement, record_bound] at hp hg ⊢
    rw [record_passed] at hpos
    split at hpos
    · rename_i hcond
      exact ⟨(name, D), by simp, (wantsEntry_iff.1 hcond.1).1, hcond.2.2⟩
    · obtain ⟨e, he, hacc, hsat⟩ := h.glob hp hg hpos
      exact ⟨e, List.mem_append_left _ he, hacc, hsat⟩
  · intro hp hb hg
    simp only [record_requirement, record_bound] at hp hb hg ⊢
    obtain ⟨hpassed, hall⟩ := h.exact hp hb hg
    by_cases ha : f.bound.accepts name = true
    · -- the file wanted the entry, and survives it only when satisfied
      have hwant : f.wantsEntry name = true := wantsEntry_iff.2 ⟨ha, hb, by simp [hg]⟩
      have hsat : lib.satisfies limit f.requirement D = true := by
        simpa [FileTally.admits, hp, hg] using hadm hwant
      rw [record_passed, if_pos ⟨hwant, hp, hsat⟩]
      refine ⟨by simp [hpassed, ha], ?_⟩
      intro e he hacc
      rcases List.mem_append.1 he with he | he
      · exact hall e he hacc
      · simp only [List.mem_singleton] at he
        subst he
        exact hsat
    · have hwant : f.wantsEntry name = false := by
        cases hw : f.wantsEntry name with
        | false => rfl
        | true => exact absurd (wantsEntry_iff.1 hw).1 ha
      rw [record_passed, if_neg (by simp [hwant])]
      refine ⟨by simp [hpassed, ha], ?_⟩
      intro e he hacc
      rcases List.mem_append.1 he with he | he
      · exact hall e he hacc
      · simp only [List.mem_singleton] at he
        subst he
        exact absurd hacc ha
  · intro hp hb e he hacc
    simp only [record_requirement, record_bound] at hp hb hacc ⊢
    rcases List.mem_append.1 he with he | he
    · exact h.absent hp hb e he hacc
    · -- an absent file wants every entry its path accepts, and survives only a miss
      simp only [List.mem_singleton] at he
      subst he
      have hwant : f.wantsEntry name = true := wantsEntry_iff.2 ⟨hacc, hb, by simp [hp]⟩
      simpa [FileTally.admits, hp] using hadm hwant

/-- A file left as it was keeps its promise when the entry concerns it only as a glob. -/
theorem Sound.skip (h : f.Sound lib limit done)
    (hglob : f.wantsEntry name = true →
      f.requirement.presence = .required ∧ f.bound.isWildcard = true) :
    f.Sound lib limit (done ++ [(name, D)]) := by
  constructor
  · intro hp hg hpos
    obtain ⟨e, he, hacc, hsat⟩ := h.glob hp hg hpos
    exact ⟨e, List.mem_append_left _ he, hacc, hsat⟩
  · intro hp hb hg
    obtain ⟨hpassed, hall⟩ := h.exact hp hb hg
    -- a required file with an exact path wants every entry its path accepts
    have ha : f.bound.accepts name = false := by
      by_contra ha
      have := hglob (wantsEntry_iff.2 ⟨by simpa using ha, hb, by simp [hg]⟩)
      simp [hg] at this
    refine ⟨by simp [hpassed, ha], fun e he hacc => ?_⟩
    rcases List.mem_append.1 he with he | he
    · exact hall e he hacc
    · simp only [List.mem_singleton] at he
      subst he
      simp [ha] at hacc
  · intro hp hb e he hacc
    rcases List.mem_append.1 he with he | he
    · exact h.absent hp hb e he hacc
    · simp only [List.mem_singleton] at he
      subst he
      have := hglob (wantsEntry_iff.2 ⟨hacc, hb, by simp [hp]⟩)
      simp [hp] at this

/-- A glob that records the verdict of an entry passes once the entry satisfies it. -/
theorem Complete.record (h : f.Complete lib limit done) :
    (f.record name (lib.satisfies limit f.requirement D)).Complete lib limit
      (done ++ [(name, D)]) := by
  intro hp hb hg hex
  simp only [record_requirement, record_bound] at hp hb hg hex
  rw [record_passed]
  by_cases hpos : 0 < f.passed
  · split <;> omega
  · obtain ⟨e, he, hacc, hsat⟩ := hex
    rcases List.mem_append.1 he with he | he
    · exact absurd (h hp hb hg ⟨e, he, hacc, hsat⟩) hpos
    · -- a glob that has not passed wants the entry
      simp only [List.mem_singleton] at he
      subst he
      have hwant : f.wantsEntry name = true :=
        wantsEntry_iff.2 ⟨hacc, hb, fun _ _ => by omega⟩
      rw [if_pos ⟨hwant, hp, hsat⟩]
      omega

/-- A glob that does not want an entry its path accepts has already passed. -/
theorem Complete.skip (h : f.Complete lib limit done) (hno : f.wantsEntry name = false) :
    f.Complete lib limit (done ++ [(name, D)]) := by
  intro hp hb hg ⟨e, he, hacc, hsat⟩
  rcases List.mem_append.1 he with he | he
  · exact h hp hb hg ⟨e, he, hacc, hsat⟩
  · simp only [List.mem_singleton] at he
    subst he
    refine Nat.pos_of_ne_zero fun h0 => ?_
    have := wantsEntry_iff.2 ⟨hacc, hb, fun _ _ => h0⟩
    simp [hno] at this

/-- A required file counted an entry of the whole listing whenever the file holds of it. -/
theorem seen_ne_zero_of_holds {v : List (String × ByteArray)}
    (hseen : f.seen = (v.filter fun e => f.bound.accepts e.1).length)
    (hh : f.requirement.holds lib limit f.bound v = true)
    (hp : f.requirement.presence = .required) : f.seen ≠ 0 := by
  rw [hseen]
  -- every way a required file holds needs an entry its path accepts
  cases hb : f.requirement.hasBinary with
  | false => simpa [DeclaredFile.holds, hp, hb] using hh
  | true =>
    cases hg : f.bound.isWildcard with
    | true =>
      simp [DeclaredFile.holds, hp, hb, hg] at hh ⊢
      obtain ⟨a, b, hab, hacc, -⟩ := hh
      exact ⟨a, ⟨b, hab⟩, hacc⟩
    | false =>
      simp [DeclaredFile.holds, hp, hb, hg] at hh ⊢
      exact hh.1

/-- Counters that keep their promise over the whole listing, with every entry the path accepts
counted, meet what the declared file asks when the candidate's final check passes them. -/
theorem holds_of_counts {v : List (String × ByteArray)} (hs : f.Sound lib limit v)
    (hseen : f.seen = (v.filter fun e => f.bound.accepts e.1).length)
    (habs : f.requirement.presence = .absent → f.requirement.hasBinary = false → f.seen = 0)
    (hreq : f.requirement.presence = .required →
      (f.requirement.hasBinary = true → f.satisfied = true) ∧ f.seen ≠ 0) :
    f.requirement.holds lib limit f.bound v = true := by
  have hcount : f.seen ≠ 0 ↔ ∃ a, (∃ b, (a, b) ∈ v) ∧ f.bound.accepts a = true := by
    rw [hseen]
    simp
  cases hp : f.requirement.presence with
  | required =>
    obtain ⟨hsat, hne⟩ := hreq hp
    cases hb : f.requirement.hasBinary with
    | false =>
      simp only [DeclaredFile.holds, hp, hb]
      simpa using hcount.1 hne
    | true =>
      cases hg : f.bound.isWildcard with
      | true =>
        -- a glob passed on an entry that satisfied it
        have hpos : 0 < f.passed := by simpa [satisfied, hg] using hsat hb
        obtain ⟨e, he, hacc, hsat'⟩ := hs.glob hp hg hpos
        simp only [DeclaredFile.holds, hp, hb, hg]
        simpa using ⟨e.1, e.2, he, hacc, hsat'⟩
      | false =>
        obtain ⟨-, hall⟩ := hs.exact hp hb hg
        simp only [DeclaredFile.holds, hp, hb, hg]
        simp only [Bool.not_true, Bool.false_eq_true, if_false]
        simp only [Bool.and_eq_true, Bool.not_eq_true', List.isEmpty_eq_false_iff_exists_mem,
          List.all_eq_true, List.mem_filter]
        obtain ⟨a, ⟨b, hab⟩, hacc⟩ := hcount.1 hne
        exact ⟨⟨(a, b), hab, hacc⟩, fun e he => hall e he.1 he.2⟩
  | absent =>
    cases hb : f.requirement.hasBinary with
    | false =>
      -- no entry is present for a file declared absent without binary signatures
      have hnone := mt hcount.2 (not_not.2 (habs hp hb))
      simp only [DeclaredFile.holds, hp, hb]
      simp only [not_exists, not_and, Bool.not_eq_true] at hnone
      simpa using fun a b hab => hnone a ⟨b, hab⟩
    | true =>
      simp only [DeclaredFile.holds, hp, hb]
      simpa using fun a b hab hacc => hs.absent hp hb (a, b) hab hacc

/-- A required file that holds of the whole listing passes the candidate's final check, when
its counters keep both promises. -/
theorem counts_of_holds {v : List (String × ByteArray)} (hs : f.Sound lib limit v)
    (hc : f.Complete lib limit v)
    (hseen : f.seen = (v.filter fun e => f.bound.accepts e.1).length)
    (hh : f.requirement.holds lib limit f.bound v = true)
    (hp : f.requirement.presence = .required) :
    (f.requirement.hasBinary = true → f.satisfied = true) ∧ f.seen ≠ 0 := by
  refine ⟨fun hb => ?_, seen_ne_zero_of_holds hseen hh hp⟩
  cases hg : f.bound.isWildcard with
  | true =>
    simp only [DeclaredFile.holds, hp, hb, hg] at hh
    simp only [Bool.not_true, Bool.false_eq_true, if_false, if_true] at hh
    obtain ⟨e, he, hsat⟩ := List.any_eq_true.1 hh
    have hpos := hc hp hb hg ⟨e, (List.mem_filter.1 he).1, (List.mem_filter.1 he).2, hsat⟩
    simpa [satisfied, hg] using hpos
  | false =>
    obtain ⟨hpassed, -⟩ := hs.exact hp hb hg
    have hne := seen_ne_zero_of_holds hseen hh hp
    simp only [satisfied, hg]
    simp only [Bool.false_eq_true, if_false, Bool.and_eq_true, decide_eq_true_eq, beq_iff_eq]
    omega

/-- A file whose verdict names alone decide holds when, required, it has no binary signatures
and counted an entry, and, declared absent, it counted none. -/
theorem holds_of_names {v : List (String × ByteArray)}
    (hseen : f.seen = (v.filter fun e => f.bound.accepts e.1).length)
    (hreq : f.requirement.presence = .required → f.requirement.hasBinary = false ∧ f.seen ≠ 0)
    (habs : f.requirement.presence = .absent → f.seen = 0) :
    f.requirement.holds lib limit f.bound v = true := by
  have hcount : f.seen ≠ 0 ↔ ∃ a, (∃ b, (a, b) ∈ v) ∧ f.bound.accepts a = true := by
    rw [hseen]
    simp
  cases hp : f.requirement.presence with
  | required =>
    obtain ⟨hb, hne⟩ := hreq hp
    simp only [DeclaredFile.holds, hp, hb]
    simpa using hcount.1 hne
  | absent =>
    have hnone := mt hcount.2 (not_not.2 (habs hp))
    simp only [not_exists, not_and, Bool.not_eq_true] at hnone
    cases hb : f.requirement.hasBinary with
    | false =>
      simp only [DeclaredFile.holds, hp, hb]
      simpa using fun a b hab => hnone a ⟨b, hab⟩
    | true =>
      simp only [DeclaredFile.holds, hp, hb]
      simpa using fun a b hab hacc => absurd hacc (by simp [hnone a ⟨b, hab⟩])

/-- A file that holds of the listing survives the verdict of every entry of the listing it
wants. -/
theorem admits_of_holds {v : List (String × ByteArray)}
    (hh : f.requirement.holds lib limit f.bound v = true) (hmem : (name, D) ∈ v)
    (hwant : f.wantsEntry name = true) :
    f.admits (lib.satisfies limit f.requirement D) = true := by
  obtain ⟨hacc, hb, -⟩ := wantsEntry_iff.1 hwant
  cases hp : f.requirement.presence with
  | required =>
    cases hg : f.bound.isWildcard with
    | true => simp [admits, hp, hg]
    | false =>
      -- an exact path holds only when every entry it accepts satisfies it
      simp [DeclaredFile.holds, hp, hb, hg] at hh
      rcases hh.2 name D hmem with hno | hsat
      · simp [hacc] at hno
      · simp [admits, hp, hsat]
  | absent =>
    simp [DeclaredFile.holds, hp, hb] at hh
    simp [admits, hp, hh name D hmem hacc]

/-- Marking a file unreadable keeps its promise. -/
theorem Sound.mark (h : f.Sound lib limit done) (u : Bool) :
    ({ f with unreadable := u } : FileTally).Sound lib limit done :=
  ⟨h.glob, h.exact, h.absent⟩

end FileTally

/-! ## §2 The name pass -/

/-- A signature's declared files with their paths resolved for a container named `cname`. -/
def Signature.declared (cname : Option String) (s : Signature) :
    List (DeclaredFile × ResolvedPath) :=
  s.files.map fun df => (df, df.path.bind cname)

namespace Candidate

variable {cname : Option String} {s : Signature} {c : Candidate} {name : String}

theorem start_declared : (start s cname).files.map FileTally.decl = s.declared cname := by
  simp [start, Signature.declared, FileTally.decl, Function.comp_def]

/-- A file of a candidate whose files are declared by `s` is one of `s`'s files, its path
resolved for the container. -/
theorem mem_declared {files : List FileTally} (h : files.map FileTally.decl = s.declared cname)
    {f : FileTally} (hf : f ∈ files) :
    f.requirement ∈ s.files ∧ f.bound = f.requirement.path.bind cname := by
  have hmem : f.decl ∈ s.declared cname := h ▸ List.mem_map_of_mem hf
  obtain ⟨df, hdf, heq⟩ := List.mem_map.1 hmem
  simp only [FileTally.decl, Prod.mk.injEq] at heq
  obtain ⟨rfl, hb⟩ := heq
  exact ⟨hdf, hb.symm⟩

/-- Every file `s` declares has its state among a candidate's files declared by `s`. -/
theorem exists_of_declared {files : List FileTally}
    (h : files.map FileTally.decl = s.declared cname) {df : DeclaredFile} (hdf : df ∈ s.files) :
    ∃ f ∈ files, f.requirement = df ∧ f.bound = df.path.bind cname := by
  have hmem : (df, df.path.bind cname) ∈ files.map FileTally.decl :=
    h ▸ List.mem_map_of_mem (f := fun df => (df, df.path.bind cname)) hdf
  obtain ⟨f, hf, heq⟩ := List.mem_map.1 hmem
  simp only [FileTally.decl, Prod.mk.injEq] at heq
  exact ⟨f, hf, heq⟩

/-- `c'` is a later state of the candidate `c`: the same signature and the same declared files,
and no verdict before one. -/
structure Descends (c c' : Candidate) : Prop where
  signature : c'.signature = c.signature
  declared : c'.files.map FileTally.decl = c.files.map FileTally.decl
  live : c'.isLive = true → c.isLive = true

theorem Descends.refl (c : Candidate) : Descends c c := ⟨rfl, rfl, id⟩

theorem Descends.trans {c c' c'' : Candidate} (h : Descends c c') (h' : Descends c' c'') :
    Descends c c'' :=
  ⟨h'.signature.trans h.signature, h'.declared.trans h.declared, fun hl => h.live (h'.live hl)⟩

/-- A file of a later state whose path accepts a name and which has binary signatures is
declared alike in the earlier state. -/
theorem Descends.exists_accepting_binary {c c' : Candidate} (h : Descends c c') {name : String}
    (hf : ∃ f ∈ c'.files, f.bound.accepts name = true ∧ f.requirement.hasBinary = true) :
    ∃ f ∈ c.files, f.bound.accepts name = true ∧ f.requirement.hasBinary = true := by
  obtain ⟨f', hf', hacc, hb⟩ := hf
  have hmem : f'.decl ∈ c.files.map FileTally.decl := h.declared ▸ List.mem_map_of_mem hf'
  obtain ⟨f, hf, hfd⟩ := List.mem_map.1 hmem
  simp only [FileTally.decl, Prod.mk.injEq] at hfd
  exact ⟨f, hf, hfd.2 ▸ hacc, hfd.1 ▸ hb⟩

/-- Noting a name in the files: each file whose path accepts it counts it, up to a file
declared absent without binary signatures, which stops the candidate; the content is needed
when some accepting file has binary signatures. -/
theorem noteNameFiles_spec (name : String) (files : List FileTally) :
    (noteNameFiles name files).1.map FileTally.decl = files.map FileTally.decl ∧
    (noteNameFiles name files).1.map (·.passed) = files.map (·.passed) ∧
    ((noteNameFiles name files).2.2 = true → ∃ f ∈ files, f.bound.accepts name = true ∧
      f.requirement.presence = .absent ∧ f.requirement.hasBinary = false) ∧
    ((noteNameFiles name files).2.2 = false →
      (noteNameFiles name files).1 =
        files.map (fun f => if f.bound.accepts name then { f with seen := f.seen + 1 } else f) ∧
      (noteNameFiles name files).2.1 =
        files.any (fun f => f.bound.accepts name && f.requirement.hasBinary) ∧
      ∀ f ∈ files, f.bound.accepts name = true → f.requirement.presence = .absent →
        f.requirement.hasBinary = true) := by
  induction files with
  | nil => simp [noteNameFiles]
  | cons f rest ih =>
    obtain ⟨hdecl, hpassed, hstop, hgo⟩ := ih
    rcases hr : noteNameFiles name rest with ⟨rest', needs, stop⟩
    rw [hr] at hdecl hpassed hstop hgo
    dsimp only at hdecl hpassed hstop hgo
    by_cases ha : f.bound.accepts name = true
    · by_cases hab : f.requirement.presence = .absent ∧ f.requirement.hasBinary = false
      · -- a file declared absent without binary signatures stops the candidate
        have he : noteNameFiles name (f :: rest) =
            ({ f with seen := f.seen + 1 } :: rest, false, true) := by
          simp [noteNameFiles, ha, hab.1, hab.2]
        rw [he]
        exact ⟨by simp [FileTally.decl], by simp, fun _ => ⟨f, List.mem_cons_self, ha, hab⟩,
          fun h => by cases h⟩
      · have he : noteNameFiles name (f :: rest) =
            ({ f with seen := f.seen + 1 } :: rest', f.requirement.hasBinary || needs, stop) := by
          have hab' : ¬(f.requirement.presence = .absent ∧ f.requirement.hasBinary = false) := hab
          simp only [noteNameFiles, ha, if_true, hr]
          rw [if_neg (by simpa using hab')]
        rw [he]
        refine ⟨by simp [FileTally.decl, hdecl], by simp [hpassed], fun h => ?_, fun h => ?_⟩
        · obtain ⟨g, hg, hga⟩ := hstop h
          exact ⟨g, List.mem_cons_of_mem _ hg, hga⟩
        · obtain ⟨hmap, hneeds, hnot⟩ := hgo h
          refine ⟨by simp [hmap, ha], by simp [hneeds, ha], ?_⟩
          rintro g (_ | ⟨_, hg⟩) hga hgp
          · cases hb : f.requirement.hasBinary
            · exact absurd ⟨hgp, hb⟩ hab
            · rfl
          · exact hnot g hg hga hgp
    · have he : noteNameFiles name (f :: rest) = (f :: rest', needs, stop) := by
        simp [noteNameFiles, ha, hr]
      rw [he]
      refine ⟨by simp [hdecl], by simp [hpassed], fun h => ?_, fun h => ?_⟩
      · obtain ⟨g, hg, hga⟩ := hstop h
        exact ⟨g, List.mem_cons_of_mem _ hg, hga⟩
      · obtain ⟨hmap, hneeds, hnot⟩ := hgo h
        refine ⟨by simp [hmap, ha], by simp [hneeds, ha], ?_⟩
        rintro g (_ | ⟨_, hg⟩) hga hgp
        · exact absurd hga ha
        · exact hnot g hg hga hgp

theorem noteName_of_dead (h : c.isLive = false) : c.noteName name = (c, false) := by
  simp [noteName, h]

theorem noteName_of_stop (h : c.isLive = true) (hs : (noteNameFiles name c.files).2.2 = true) :
    c.noteName name =
      ({ c with
          files := (noteNameFiles name c.files).1
          phase := .rejected .absentEntryPresent }, false) := by
  rcases hr : noteNameFiles name c.files with ⟨files, needs, stop⟩
  rw [hr] at hs
  subst hs
  simp [noteName, h, hr]

theorem noteName_of_go (h : c.isLive = true) (hs : (noteNameFiles name c.files).2.2 = false) :
    (c.noteName name).1.files = (noteNameFiles name c.files).1 ∧
      (c.noteName name).1.signature = c.signature ∧ (c.noteName name).1.isLive = true ∧
      (c.noteName name).2 = (noteNameFiles name c.files).2.1 := by
  rcases hr : noteNameFiles name c.files with ⟨files, needs, stop⟩
  rw [hr] at hs
  subst hs
  simp only [noteName, h, Bool.not_true, hr, Bool.false_eq_true, if_false]
  refine ⟨trivial, trivial, ?_, trivial⟩
  -- the phase moves to partial satisfaction or stays; either way there is no verdict
  split
  · rfl
  · exact h

theorem descends_noteName (c : Candidate) (name : String) : Descends c (c.noteName name).1 := by
  cases hl : c.isLive
  · rw [noteName_of_dead hl]
    exact Descends.refl c
  · obtain ⟨hdecl, -, -, -⟩ := noteNameFiles_spec name c.files
    cases hs : (noteNameFiles name c.files).2.2
    · obtain ⟨hfiles, hsig, hlive, -⟩ := noteName_of_go hl hs
      exact ⟨hsig, by rw [hfiles, hdecl], fun _ => hl⟩
    · rw [noteName_of_stop hl hs]
      exact ⟨rfl, hdecl, fun _ => hl⟩

/-- A candidate still open after noting a name needs the entry when some file with binary
signatures accepts the name. -/
theorem noteName_needs (hl : (c.noteName name).1.isLive = true)
    (hf : ∃ f ∈ (c.noteName name).1.files,
      f.bound.accepts name = true ∧ f.requirement.hasBinary = true) :
    (c.noteName name).2 = true := by
  cases hc : c.isLive
  · rw [noteName_of_dead hc] at hl
    simp [hc] at hl
  · cases hs : (noteNameFiles name c.files).2.2
    · obtain ⟨-, -, -, hneeds⟩ := noteName_of_go hc hs
      -- the accepting file was declared alike before the name was noted
      obtain ⟨f, hf, hacc, hbin⟩ := (descends_noteName c name).exists_accepting_binary hf
      rw [hneeds, ((noteNameFiles_spec name c.files).2.2.2 hs).2.1, List.any_eq_true]
      exact ⟨f, hf, by simp [hacc, hbin]⟩
    · rw [noteName_of_stop hc hs] at hl
      simp [isLive, Phase.isTerminal] at hl

/-- What the name pass knows of a candidate after the names `pre`: its signature and declared
files, no file passed yet; while it has no verdict, every file counted the names its path
accepts and no file declared absent without binary signatures accepted one; and a verdict
rejects a present file declared absent without binary signatures. -/
structure Named (cname : Option String) (pre : List String) (s : Signature) (c : Candidate) :
    Prop where
  signature : c.signature = s
  declared : c.files.map FileTally.decl = s.declared cname
  passed : ∀ f ∈ c.files, f.passed = 0
  live : c.isLive = true → ∀ f ∈ c.files, f.seen = pre.countP (f.bound.accepts ·) ∧
    (f.requirement.presence = .absent → f.requirement.hasBinary = false → f.seen = 0)
  rejected : c.isLive = false → c.phase = .rejected .absentEntryPresent ∧
    ∃ f ∈ c.files, f.requirement.presence = .absent ∧ f.requirement.hasBinary = false ∧
      ∃ n ∈ pre, f.bound.accepts n = true

theorem named_start (cname : Option String) (s : Signature) : Named cname [] s (start s cname) where
  signature := rfl
  declared := start_declared
  passed := by simp [start]
  live := by simp [start]
  rejected := by simp [start, isLive, Phase.isTerminal]

/-- Noting one more name keeps what the name pass knows. -/
theorem Named.noteName {pre : List String} (h : Named cname pre s c) (name : String) :
    Named cname (pre ++ [name]) s (c.noteName name).1 := by
  cases hl : c.isLive
  · rw [noteName_of_dead hl]
    obtain ⟨hph, f, hf, hp, hb, n, hn, hacc⟩ := h.rejected hl
    exact ⟨h.signature, h.declared, h.passed, fun h' => absurd h' (by simp [hl]),
      fun _ => ⟨hph, f, hf, hp, hb, n, List.mem_append_left _ hn, hacc⟩⟩
  · obtain ⟨hdecl, hpassed, hstop, hgo⟩ := noteNameFiles_spec name c.files
    have hpassed' : ∀ f ∈ (noteNameFiles name c.files).1, f.passed = 0 := by
      intro f hf
      have hmem : f.passed ∈ c.files.map (·.passed) := hpassed ▸ List.mem_map_of_mem hf
      obtain ⟨g, hg, hgf⟩ := List.mem_map.1 hmem
      rw [← hgf]
      exact h.passed g hg
    cases hs : (noteNameFiles name c.files).2.2
    · -- every accepting file counts the name
      obtain ⟨hfiles, hsig, hlive, -⟩ := noteName_of_go hl hs
      obtain ⟨hmap, -, hnot⟩ := hgo hs
      refine ⟨hsig.trans h.signature, by rw [hfiles, hdecl, h.declared], by rwa [hfiles],
        fun _ => ?_, fun h' => absurd hlive (by simp [h'])⟩
      rw [hfiles, hmap]
      intro f' hf'
      obtain ⟨f, hf, rfl⟩ := List.mem_map.1 hf'
      obtain ⟨hseen, habs⟩ := h.live hl f hf
      by_cases ha : f.bound.accepts name = true
      · refine ⟨by simp [ha, hseen, List.countP_append], fun hp hb => ?_⟩
        simp only [ha, if_true] at hp hb
        simp [hnot f hf ha hp] at hb
      · refine ⟨by simp [ha, hseen, List.countP_append], fun hp hb => ?_⟩
        simp only [ha] at hp hb ⊢
        exact habs hp hb
    · -- a file declared absent without binary signatures accepted the name
      rw [noteName_of_stop hl hs]
      obtain ⟨f, hf, hacc, hp, hb⟩ := hstop hs
      have hmem : f.decl ∈ (noteNameFiles name c.files).1.map FileTally.decl :=
        hdecl ▸ List.mem_map_of_mem hf
      obtain ⟨f', hf', hfd⟩ := List.mem_map.1 hmem
      simp only [FileTally.decl, Prod.mk.injEq] at hfd
      refine ⟨h.signature, by rw [hdecl, h.declared], hpassed', fun h' => by simp [isLive,
        Phase.isTerminal] at h', fun _ => ⟨rfl, f', hf', by rw [hfd.1]; exact hp,
        by rw [hfd.1]; exact hb, name, by simp, by rw [hfd.2]; exact hacc⟩⟩

/-! ## §3 Tracking a candidate -/

/-- What holds of a candidate for the signature `s` once the entries `done` of the listing `v`
took their turns: it keeps its signature and declared files, and a match found by names alone
is a signature that holds. While it has no verdict, each file counted the entries of `v` its
path accepts, a file declared absent without binary signatures counted none, and the counters
keep their promise over `done`. When `clean` (every entry read), a signature that holds is not
rejected, and a glob passed once an entry of `done` satisfied it. -/
structure Tracks (lib : Library) (limit : Option Nat) (cname : Option String) (clean : Prop)
    (v done : List (String × ByteArray)) (s : Signature) (c : Candidate) : Prop where
  signature : c.signature = s
  declared : c.files.map FileTally.decl = s.declared cname
  matched : c.phase = .matched → s.holds lib limit cname v = true
  seen : c.isLive = true → ∀ f ∈ c.files,
    f.seen = (v.filter fun e => f.bound.accepts e.1).length ∧
      (f.requirement.presence = .absent → f.requirement.hasBinary = false → f.seen = 0)
  sound : c.isLive = true → ∀ f ∈ c.files, f.Sound lib limit done
  alive : clean → s.holds lib limit cname v = true → c.isLive = true ∨ c.phase = .matched
  complete : clean → c.isLive = true → ∀ f ∈ c.files, f.Complete lib limit done

variable {lib : Library} {limit : Option Nat} {v : List (String × ByteArray)}

theorem holds_of_mem (hdecl : c.files.map FileTally.decl = s.declared cname)
    (hs : s.holds lib limit cname v = true) {f : FileTally} (hf : f ∈ c.files) :
    f.requirement.holds lib limit f.bound v = true := by
  obtain ⟨hmem, hb⟩ := mem_declared hdecl hf
  rw [hb]
  exact List.all_eq_true.1 hs _ hmem

theorem holds_of_files (hdecl : c.files.map FileTally.decl = s.declared cname)
    (h : ∀ f ∈ c.files, f.requirement.holds lib limit f.bound v = true) :
    s.holds lib limit cname v = true := by
  refine List.all_eq_true.2 fun df hdf => ?_
  obtain ⟨f, hf, rfl, hb⟩ := exists_of_declared hdecl hdf
  rw [← hb]
  exact h f hf

theorem countP_names (v : List (String × ByteArray)) (b : ResolvedPath) :
    (v.map Prod.fst).countP (b.accepts ·) = (v.filter fun e => b.accepts e.1).length := by
  rw [List.countP_map, List.countP_eq_length_filter]
  rfl

/-- Settling what the names decide leaves a later state of the candidate. -/
theorem descends_settleNames (c : Candidate) : Descends c c.settleNames.1 := by
  unfold settleNames
  split
  · exact Descends.refl c
  · split
    · exact ⟨rfl, rfl, fun h => by simp [isLive, Phase.isTerminal] at h⟩
    · split
      · exact Descends.refl c
      · exact ⟨rfl, rfl, fun h => by simp [isLive, Phase.isTerminal] at h⟩

/-- Settling what the names of the whole listing decide leaves a candidate tracked, with no
entry shown yet. -/
theorem Named.settle (h : Named cname (v.map Prod.fst) s c) (clean : Prop) :
    Tracks lib limit cname clean v [] s c.settleNames.1 := by
  cases hl : c.isLive
  · -- a file declared absent without binary signatures is present
    have he : c.settleNames = (c, false) := by simp [settleNames, hl]
    rw [he]
    obtain ⟨hph, f, hf, hp, hb, n, hn, hacc⟩ := h.rejected hl
    refine ⟨h.signature, h.declared, (fun hm => by simp [hph] at hm),
      (fun h' => by simp [hl] at h'), (fun h' => by simp [hl] at h'), (fun _ hs => ?_),
      (fun _ h' => by simp [hl] at h')⟩
    have hholds := holds_of_mem h.declared hs hf
    obtain ⟨e, he', rfl⟩ := List.mem_map.1 hn
    simp only [DeclaredFile.holds, hp, hb] at hholds
    simp at hholds
    simp [hholds e.1 e.2 he'] at hacc
  · have hseen : ∀ f ∈ c.files, f.seen = (v.filter fun e => f.bound.accepts e.1).length ∧
        (f.requirement.presence = .absent → f.requirement.hasBinary = false → f.seen = 0) := by
      intro f hf
      rw [← countP_names]
      exact h.live hl f hf
    simp only [settleNames, hl, Bool.not_true, Bool.false_eq_true, if_false]
    split
    · -- a required file is missing
      rename_i hmiss
      obtain ⟨f, hf, hmf⟩ := List.any_eq_true.1 hmiss
      simp only [decide_eq_true_eq] at hmf
      refine ⟨h.signature, h.declared, (fun hm => by cases hm), (fun h' => by cases h'),
        (fun h' => by cases h'), (fun _ hs => ?_), (fun _ h' => by cases h')⟩
      exact absurd hmf.2 (FileTally.seen_ne_zero_of_holds (hseen f hf).1
        (holds_of_mem h.declared hs hf) hmf.1)
    · split
      · -- binary work remains: nothing is counted as passed yet
        refine ⟨h.signature, h.declared,
          (fun hm => absurd hl
            (by simp [isLive, Phase.isTerminal, show c.phase = .matched from hm])),
          (fun _ => hseen), (fun _ f hf => FileTally.sound_nil (h.passed f hf)),
          (fun _ _ => .inl hl), (fun _ _ _ _ => FileTally.complete_nil)⟩
      · -- names alone decide a match
        rename_i hmiss hbin
        have hholds : s.holds lib limit cname v = true := by
          refine holds_of_files h.declared fun f hf => ?_
          have hnm := List.any_eq_false.1 (Bool.eq_false_iff.2 hmiss) f hf
          have hnb := List.any_eq_false.1 (Bool.eq_false_iff.2 hbin) f hf
          simp only [decide_eq_true_eq, not_and] at hnm hnb
          refine FileTally.holds_of_names (hseen f hf).1 (fun hp => ?_) (fun hp => ?_)
          · have hne := hnm hp
            exact ⟨by simpa using hnb (Nat.pos_of_ne_zero hne), hne⟩
          · cases hb : f.requirement.hasBinary
            · exact (hseen f hf).2 hp hb
            · exact Nat.eq_zero_of_not_pos fun hpos => by simp [hnb hpos] at hb
        exact ⟨h.signature, h.declared, (fun _ => hholds), (fun h' => by cases h'),
          (fun h' => by cases h'), (fun _ _ => .inr rfl), (fun _ h' => by cases h')⟩

/-! ## §4 Turns of the content pass -/

theorem noteUnreadable_of_dead (h : c.isLive = false) : c.noteUnreadable name = c := by
  simp [noteUnreadable, h]

/-- Noting an unreadable entry marks the files that wanted it, and rejects the candidate unless
each of them is a required glob, which another entry may still satisfy. -/
theorem noteUnreadable_of_live (name : String) (h : c.isLive = true) :
    (c.noteUnreadable name).signature = c.signature ∧
      (c.noteUnreadable name).files = c.files.map
        (fun f => if f.wantsEntry name = true then { f with unreadable := true } else f) ∧
      ((c.noteUnreadable name).isLive = true → ∀ f ∈ c.files, f.wantsEntry name = true →
        f.requirement.presence = .required ∧ f.bound.isWildcard = true) ∧
      (c.noteUnreadable name).phase ≠ .matched := by
  have hzip : ∀ {β : Type} (g : FileTally → Bool) (F : FileTally × Bool → β),
      (c.files.zip (c.files.map g)).map F = c.files.map fun f => F (f, g f) := by
    intro β g F
    simp [List.zip_eq_zipWith, List.zipWith_map_right, List.zipWith_self]
  have hany : ∀ (g : FileTally → Bool) (F : FileTally × Bool → Bool),
      (c.files.zip (c.files.map g)).any F = c.files.any fun f => F (f, g f) := by
    intro g F
    simp [List.zip_eq_zipWith, List.zipWith_map_right, List.zipWith_self, Function.comp_def]
  simp only [noteUnreadable, h, Bool.not_true, Bool.false_eq_true, if_false, hzip, hany]
  refine ⟨trivial, trivial, fun hl f hf hwant => ?_, ?_⟩
  · -- no file that wanted the entry needs every copy of it
    split at hl
    · simp [isLive, Phase.isTerminal] at hl
    · rename_i hfatal
      have hno := List.any_eq_false.1 (Bool.eq_false_iff.2 hfatal) f hf
      cases hp : f.requirement.presence <;> cases hg : f.bound.isWildcard <;>
        simp_all
  · split
    · simp
    · intro hm
      simp [isLive, hm, Phase.isTerminal] at h

theorem noteContent_of_dead {content : OpenEntry Stream} (h : c.isLive = false) :
    c.noteContent lib name content = (.ok (), c, content) := by
  simp [noteContent, h]

/-- Showing content to a candidate with no verdict feeds the entry to its files, then keeps,
rejects, or notes the entry unreadable. -/
theorem noteContent_of_live {content content' : OpenEntry Stream} {files : List FileTally}
    {o : ContentOutcome} (h : c.isLive = true)
    (hr : noteContentFiles lib name c.files content = (files, o, content')) :
    (c.noteContent lib name content).2.2 = content' ∧
      (o = .settled → (c.noteContent lib name content).1 = .ok () ∧
        (c.noteContent lib name content).2.1 = { c with files }) ∧
      (∀ r, o = .rejects r →
        (c.noteContent lib name content).2.1 = { c with files, phase := .rejected r }) ∧
      (∀ err, o = .fails err → (c.noteContent lib name content).1 = .error err ∧
        (c.noteContent lib name content).2.1 =
          ({ c with files } : Candidate).noteUnreadable name) := by
  simp only [noteContent, h, Bool.not_true, Bool.false_eq_true, if_false, hr]
  refine ⟨by cases o <;> rfl, fun ho => by subst ho; exact ⟨rfl, rfl⟩,
    fun r ho => ?_, fun err ho => by subst ho; exact ⟨rfl, rfl⟩⟩
  subst ho
  have hterm : c.phase.isTerminal = false := by simpa [isLive] using h
  simp [reject, isLive, hterm]

/-- One entry's turn with a candidate in the content pass: a candidate that wants nothing of
the entry is passed over; one that does notes an entry that cannot be opened as unreadable,
or is shown the content of the opened entry through a faithful open entry. -/
inductive Turn (lib : Library) (limit : Option Nat) (e : Entry) : Candidate → Candidate → Prop
  | skip {c : Candidate} : c.needsContent e.name = false → Turn lib limit e c c
  | unopened {c : Candidate} {failure : OpenFailure} : e.content = .error failure →
      Turn lib limit e c (c.noteUnreadable e.name)
  | shown {c : Candidate} {F : Feed} {content : OpenEntry Stream} : e.content = .ok F →
      content.Faithful lib F limit → Turn lib limit e c (c.noteContent lib e.name content).2.1

/-- The files after an entry: a prefix recorded its verdicts, each surviving it, and the rest
are as they were. -/
theorem mem_recorded {files files' : List FileTally} {val : FileTally → Bool} {k : Nat}
    (hk : files' = (files.take k).map (fun f => f.record name (val f)) ++ files.drop k)
    (hadm : ∀ f ∈ files.take k, f.wantsEntry name = true → f.admits (val f) = true)
    {f' : FileTally} (hf' : f' ∈ files') :
    ∃ f ∈ files, f'.decl = f.decl ∧ f'.seen = f.seen ∧
      ((f' = f.record name (val f) ∧ (f.wantsEntry name = true → f.admits (val f) = true)) ∨
        f' = f) := by
  rw [hk] at hf'
  rcases List.mem_append.1 hf' with hf' | hf'
  · obtain ⟨f, hf, rfl⟩ := List.mem_map.1 hf'
    exact ⟨f, List.mem_of_mem_take hf, by simp, by simp, .inl ⟨rfl, hadm f hf⟩⟩
  · exact ⟨f', List.mem_of_mem_drop hf', rfl, rfl, .inr rfl⟩

theorem decl_recorded {files : List FileTally} {val : FileTally → Bool} (k : Nat) :
    ((files.take k).map (fun f => f.record name (val f)) ++ files.drop k).map FileTally.decl =
      files.map FileTally.decl := by
  rw [List.map_append, List.map_map]
  conv => rhs; rw [← List.take_append_drop k files]
  simp [Function.comp_def]

theorem decl_marked (files : List FileTally) :
    (files.map fun f => if f.wantsEntry name = true then { f with unreadable := true } else f).map
      FileTally.decl = files.map FileTally.decl := by
  rw [List.map_map]
  congr 1
  funext f
  simp only [Function.comp_apply]
  split <;> rfl

/-- The name counts of a file carry over to a file with the same declaration and count. -/
theorem seen_of_decl {f f' : FileTally} (hd : f'.decl = f.decl) (hs : f'.seen = f.seen)
    (h : f.seen = (v.filter fun e => f.bound.accepts e.1).length ∧
      (f.requirement.presence = .absent → f.requirement.hasBinary = false → f.seen = 0)) :
    f'.seen = (v.filter fun e => f'.bound.accepts e.1).length ∧
      (f'.requirement.presence = .absent → f'.requirement.hasBinary = false → f'.seen = 0) := by
  obtain ⟨hr, hb⟩ := Prod.mk.inj hd
  rw [hs, hr, hb]
  exact h

section Turns

variable {clean : Prop} {done : List (String × ByteArray)} {D : ByteArray}

/-- A candidate that wants nothing of an entry stays tracked when passed over. -/
theorem Tracks.skip (h : Tracks lib limit cname clean v done s c)
    (hneed : c.needsContent name = false) :
    Tracks lib limit cname clean v (done ++ [(name, D)]) s c := by
  have hno : c.isLive = true → ∀ f ∈ c.files, f.wantsEntry name = false := by
    intro hl f hf
    simp only [needsContent, hl, Bool.true_and, List.any_eq_false] at hneed
    simpa using hneed f hf
  exact ⟨h.signature, h.declared, h.matched, h.seen,
    fun hl f hf => (h.sound hl f hf).skip fun hw => by simp [hno hl f hf] at hw, h.alive,
    fun hc hl f hf => (h.complete hc hl f hf).skip (hno hl f hf)⟩

/-- A candidate that notes an entry as unreadable stays tracked, over a listing not known to
be clean. -/
theorem Tracks.unopened (h : Tracks lib limit cname clean v done s c) (hnc : ¬clean) :
    Tracks lib limit cname clean v (done ++ [(name, D)]) s (c.noteUnreadable name) := by
  cases hl : c.isLive
  · rw [noteUnreadable_of_dead hl]
    exact ⟨h.signature, h.declared, h.matched, h.seen, (fun h' => by simp [hl] at h'), h.alive,
      (fun _ h' => by simp [hl] at h')⟩
  · obtain ⟨hsig, hfiles, hglob, hph⟩ := noteUnreadable_of_live name hl
    refine ⟨hsig.trans h.signature, by rw [hfiles, decl_marked, h.declared],
      (fun hm => absurd hm hph), (fun _ f' hf' => ?_), (fun hl' f' hf' => ?_),
      (fun hc => absurd hc hnc), (fun hc => absurd hc hnc)⟩
    · rw [hfiles] at hf'
      obtain ⟨f, hf, rfl⟩ := List.mem_map.1 hf'
      split <;> exact h.seen hl f hf
    · rw [hfiles] at hf'
      obtain ⟨f, hf, rfl⟩ := List.mem_map.1 hf'
      have hs := (h.sound hl f hf).skip (D := D) (hglob hl' f hf)
      split
      · exact hs.mark true
      · exact hs

/-- A candidate shown an entry's content through a faithful open entry stays tracked. -/
theorem Tracks.shown (hw : windowOf limit ≤ Size.max) (h : Tracks lib limit cname clean v done s c)
    {F : Feed} {content : OpenEntry Stream} (hF : content.Faithful lib F limit)
    (hD : F.Completes D) (hclean : clean → F.failure = none) (hmem : (name, D) ∈ v)
    (hnames : ∀ df ∈ s.files, df.NamesBelow lib.patterns.length) :
    Tracks lib limit cname clean v (done ++ [(name, D)]) s
      (c.noteContent lib name content).2.1 := by
  cases hl : c.isLive
  · rw [noteContent_of_dead hl]
    exact ⟨h.signature, h.declared, h.matched, h.seen, (fun h' => by simp [hl] at h'), h.alive,
      (fun _ h' => by simp [hl] at h')⟩
  · have hJ := Candidate.noteContentFiles_judged hw hD name c.files hF
    rcases hr : noteContentFiles lib name c.files content with ⟨files, o, content'⟩
    rw [hr] at hJ
    obtain ⟨-, hsettled, hrejects, hfails⟩ := noteContent_of_live hl hr
    obtain ⟨k, hk, hadm⟩ := hJ.recorded
    dsimp only at hk
    have hdecl : files.map FileTally.decl = s.declared cname := by
      rw [hk, decl_recorded, h.declared]
    have hseen : ∀ f' ∈ files, f'.seen = (v.filter fun e => f'.bound.accepts e.1).length ∧
        (f'.requirement.presence = .absent → f'.requirement.hasBinary = false →
          f'.seen = 0) := by
      intro f' hf'
      obtain ⟨f, hf, hd, hs, -⟩ := mem_recorded hk hadm hf'
      exact seen_of_decl hd hs (h.seen hl f hf)
    cases o with
    | settled =>
      -- every file recorded its verdict and survived it
      obtain ⟨hmap, hall⟩ := hJ.settled rfl
      dsimp only at hmap
      rw [(hsettled rfl).2]
      refine ⟨h.signature, hdecl, (fun hm => ?_), (fun _ => hseen), (fun _ f' hf' => ?_),
        (fun _ _ => .inl hl), (fun hc _ f' hf' => ?_)⟩
      · simp [isLive, show c.phase = .matched from hm, Phase.isTerminal] at hl
      · rw [hmap] at hf'
        obtain ⟨f, hf, rfl⟩ := List.mem_map.1 hf'
        exact (h.sound hl f hf).record (hall f hf)
      · rw [hmap] at hf'
        obtain ⟨f, hf, rfl⟩ := List.mem_map.1 hf'
        exact (h.complete hc hl f hf).record
    | rejects r =>
      -- a file that cannot survive its verdict does not hold
      rw [hrejects r rfl]
      refine ⟨h.signature, hdecl, (fun hm => by cases hm), (fun h' => by cases h'),
        (fun h' => by cases h'), (fun _ hs => ?_), (fun _ h' => by cases h')⟩
      obtain ⟨f, hf, hwant, hno⟩ := hJ.rejects r rfl
      have := FileTally.admits_of_holds (holds_of_mem h.declared hs hf) hmem hwant
      simp [this] at hno
    | fails err =>
      -- the read failed: the failure is noted, and a clean listing has no such entry
      rw [(hfails err rfl).2]
      have hl' : ({ c with files } : Candidate).isLive = true := hl
      obtain ⟨hsig, hfiles, hglob, hph⟩ := noteUnreadable_of_live name hl'
      have hnames' : ∀ f ∈ c.files, f.requirement.NamesBelow lib.patterns.length :=
        fun f hf => hnames _ (mem_declared h.declared hf).1
      refine ⟨hsig.trans h.signature, by rw [hfiles, decl_marked, hdecl],
        (fun hm => absurd hm hph), (fun _ f'' hf'' => ?_), (fun hl'' f'' hf'' => ?_),
        (fun hc _ => (hJ.readable (hclean hc) hnames' err rfl).elim),
        (fun hc _ => (hJ.readable (hclean hc) hnames' err rfl).elim)⟩
      · rw [hfiles] at hf''
        obtain ⟨f', hf', rfl⟩ := List.mem_map.1 hf''
        split <;> exact hseen f' hf'
      · rw [hfiles] at hf''
        obtain ⟨f', hf', rfl⟩ := List.mem_map.1 hf''
        have hs : f'.Sound lib limit (done ++ [(name, D)]) := by
          obtain ⟨f, hf, -, -, hcase⟩ := mem_recorded hk hadm hf'
          rcases hcase with ⟨rfl, hadmf⟩ | rfl
          · exact (h.sound hl f hf).record hadmf
          · exact (h.sound hl f' hf).skip (hglob hl'' f' hf')
        split
        · exact hs.mark true
        · exact hs

/-- Every turn keeps a candidate tracked. -/
theorem Tracks.turn (hw : windowOf limit ≤ Size.max) {e : Entry} {c' : Candidate}
    (h : Tracks lib limit cname clean v done s c) (ht : Turn lib limit e c c')
    (hD : ∀ F, e.content = .ok F → F.Completes D)
    (hclean : clean → ∃ F, e.content = .ok F ∧ F.failure = none) (hmem : (e.name, D) ∈ v)
    (hnames : ∀ df ∈ s.files, df.NamesBelow lib.patterns.length) :
    Tracks lib limit cname clean v (done ++ [(e.name, D)]) s c' := by
  cases ht with
  | skip hneed => exact h.skip hneed
  | unopened hc =>
    refine h.unopened fun hcl => ?_
    obtain ⟨F, hF, -⟩ := hclean hcl
    rw [hF] at hc
    cases hc
  | shown hc hF =>
    refine h.shown hw hF (hD _ hc) (fun hcl => ?_) hmem hnames
    obtain ⟨F', hF', hfail⟩ := hclean hcl
    rw [hc] at hF'
    obtain rfl := Except.ok.inj hF'
    exact hfail

end Turns

/-- Every turn leaves a later state of the candidate. -/
theorem Turn.descends (hw : windowOf limit ≤ Size.max) {e : Entry} {c' : Candidate}
    (ht : Turn lib limit e c c') : Descends c c' := by
  cases ht with
  | skip _ => exact Descends.refl c
  | unopened _ =>
    cases hl : c.isLive
    · rw [noteUnreadable_of_dead hl]
      exact Descends.refl c
    · obtain ⟨hsig, hfiles, -, -⟩ := noteUnreadable_of_live e.name hl
      exact ⟨hsig, by rw [hfiles, decl_marked], fun _ => hl⟩
  | @shown F content _ hF =>
    cases hl : c.isLive
    · rw [noteContent_of_dead hl]
      exact Descends.refl c
    · have hJ := Candidate.noteContentFiles_judged hw (Feed.completes_bytes F) e.name
        c.files hF
      rcases hr : noteContentFiles lib e.name c.files content with ⟨files, o, content'⟩
      rw [hr] at hJ
      obtain ⟨-, hsettled, hrejects, hfails⟩ := noteContent_of_live hl hr
      obtain ⟨k, hk, -⟩ := hJ.recorded
      dsimp only at hk
      have hdecl : files.map FileTally.decl = c.files.map FileTally.decl := by
        rw [hk, decl_recorded]
      cases o with
      | settled =>
        rw [(hsettled rfl).2]
        exact ⟨rfl, hdecl, fun _ => hl⟩
      | rejects r =>
        rw [hrejects r rfl]
        exact ⟨rfl, hdecl, fun _ => hl⟩
      | fails err =>
        rw [(hfails err rfl).2]
        have hl' : ({ c with files } : Candidate).isLive = true := hl
        obtain ⟨hsig, hfiles, -, -⟩ := noteUnreadable_of_live e.name hl'
        exact ⟨hsig, by rw [hfiles, decl_marked, hdecl], fun _ => hl⟩

/-! ## §5 The final verdict -/

/-- A candidate's final verdict is a match when a match was already found, or when, without a
verdict, every required file was counted and those with binary signatures are satisfied. -/
theorem conclude_matched_iff (c : Candidate) : (c.conclude).2 = .matched ↔
    (c.isLive = false ∧ c.phase = .matched) ∨
    (c.isLive = true ∧ ∀ f ∈ c.files, f.requirement.presence = .required →
      (f.requirement.hasBinary = true → f.satisfied = true) ∧ f.seen ≠ 0) := by
  cases hl : c.isLive
  · simp [conclude, hl]
  · simp only [conclude, hl, Bool.not_true, Bool.false_eq_true, if_false, Bool.true_eq_false,
      false_and, true_and, false_or]
    split
    · -- a required file with binary signatures is not satisfied
      rename_i f hfind
      have hp := List.find?_some hfind
      have hm := List.mem_of_find?_eq_some hfind
      simp only [decide_eq_true_eq, Bool.not_eq_true'] at hp
      refine ⟨(fun h => by cases h), fun h => ?_⟩
      have := (h f hm hp.1).1 hp.2.1
      simp [hp.2.2] at this
    · rename_i hfind
      have hno := List.find?_eq_none.1 hfind
      split
      · rename_i hmiss
        refine ⟨(fun h => by cases h), fun h => ?_⟩
        obtain ⟨f, hf, hmf⟩ := List.any_eq_true.1 hmiss
        simp only [decide_eq_true_eq] at hmf
        exact absurd hmf.2 (h f hf hmf.1).2
      · rename_i hmiss
        refine ⟨fun _ f hf hp => ⟨fun hb => ?_, fun h0 => hmiss ?_⟩, fun _ => rfl⟩
        · have := hno f hf
          simp only [decide_eq_true_eq, Bool.not_eq_true', not_and] at this
          cases hs : f.satisfied
          · exact absurd hs (this hp hb)
          · rfl
        · exact List.any_eq_true.2 ⟨f, hf, by simp [hp, h0]⟩
/-- A tracked candidate, once every entry of the listing took its turn, matches only when its
signature holds of the listing. -/
theorem Tracks.conclude_matched {clean : Prop} (h : Tracks lib limit cname clean v v s c)
    (hm : (c.conclude).2 = .matched) : s.holds lib limit cname v = true := by
  rcases (conclude_matched_iff c).1 hm with ⟨-, hph⟩ | ⟨hl, hreq⟩
  · exact h.matched hph
  · exact holds_of_files h.declared fun f hf =>
      FileTally.holds_of_counts (h.sound hl f hf) (h.seen hl f hf).1 (h.seen hl f hf).2
        (hreq f hf)

/-- A tracked candidate over a clean listing, once every entry took its turn, matches when its
signature holds of the listing. -/
theorem Tracks.conclude_of_holds {clean : Prop} (h : Tracks lib limit cname clean v v s c)
    (hc : clean) (hs : s.holds lib limit cname v = true) : (c.conclude).2 = .matched := by
  refine (conclude_matched_iff c).2 ?_
  rcases h.alive hc hs with hl | hph
  · exact .inr ⟨hl, fun f hf hp => FileTally.counts_of_holds (h.sound hl f hf)
      (h.complete hc hl f hf) (h.seen hl f hf).1 (holds_of_mem h.declared hs hf) hp⟩
  · exact .inl ⟨by simp [isLive, hph, Phase.isTerminal], hph⟩

end Candidate

end ContainerProbe
