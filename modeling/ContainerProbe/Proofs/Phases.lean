import Mathlib
import ContainerProbe.Verdict.Content

/-!
# A candidate's phase only moves forward

A candidate is driven by seven operations: noting an entry name, settling the name pass, asking
whether an entry's content is needed, showing an entry's content, noting an unreadable entry,
rejecting, and concluding. Identification issues them in one order, but each guards itself:
whatever order they come in, the phase moves along

`pending → partiallySatisfied → matched | rejected r`,

possibly skipping the middle phase and never going back, and a verdict, once reached, is final
together with its reason.

`Phase.rank` counts how far a phase has come; `Phase.Precedes p q` says `q` may follow `p`.
Each operation keeps the phase or moves it forward (`Candidate.precedes_step`), so every
phase of a run precedes every later one (`Candidate.phases_move_forward`). A candidate with a
verdict is a fixed point of every operation, and while it has one, showing it content
evaluates no pattern: the open entry comes back as it was given.
-/

namespace ContainerProbe

namespace Phase

/-- How far a phase has come: no file seen, some seen, a verdict. -/
def rank : Phase → Nat
  | .pending => 0
  | .partiallySatisfied => 1
  | .matched | .rejected _ => 2

/-- A candidate in phase `p` may later be in phase `q`: the same phase, or one further along
`pending → partiallySatisfied → matched | rejected r`. -/
def Precedes (p q : Phase) : Prop := p = q ∨ p.rank < q.rank

instance (p q : Phase) : Decidable (p.Precedes q) := inferInstanceAs (Decidable (_ ∨ _))

theorem Precedes.refl (p : Phase) : p.Precedes p := .inl rfl

theorem Precedes.trans {p q r : Phase} (hpq : p.Precedes q) (hqr : q.Precedes r) :
    p.Precedes r := by
  rcases hpq with rfl | hpq
  · exact hqr
  · rcases hqr with rfl | hqr
    · exact .inr hpq
    · exact .inr (Nat.lt_trans hpq hqr)

/-- Nothing follows a verdict but the verdict itself, with its reason. -/
theorem Precedes.eq_of_isTerminal {p q : Phase} (h : p.Precedes q) (hp : p.isTerminal = true) :
    q = p := by
  rcases h with rfl | h
  · rfl
  · -- a verdict has the greatest rank
    cases p <;> cases q <;> simp_all [rank, isTerminal]

/-- A phase without a verdict may stay as it is or be followed by any verdict. -/
theorem precedes_of_open {p q : Phase} (hp : p.isTerminal = false)
    (hq : q = p ∨ q.isTerminal = true) : p.Precedes q := by
  rcases hq with rfl | hq
  · exact .refl q
  · right
    cases p <;> cases q <;> simp_all [rank, isTerminal]

example : Precedes .pending (.rejected .missingEntry) ∧ ¬Precedes .matched .pending := by decide

end Phase

namespace Candidate

/-! ## §1 Operations -/

/-- One operation on a candidate's state. Content may come from a source of any kind, and a
library of any signatures. -/
inductive Op : Type 1 where
  /-- Record an entry name. -/
  | noteName (name : String)
  /-- Settle what the names alone decide. -/
  | settleNames
  /-- Ask whether an entry's content is still needed. -/
  | needsContent (name : String)
  /-- Show an entry's content. -/
  | noteContent {σ : Type} [ByteAccess σ] (lib : Library) (name : String) (content : OpenEntry σ)
  /-- Record that an entry could not be read. -/
  | noteUnreadable (name : String)
  /-- Reject for a reason. -/
  | reject (reason : Rejection)
  /-- Give the final verdict. -/
  | conclude

/-- The candidate after an operation. -/
def step (c : Candidate) : Op → Candidate
  | .noteName name => (c.noteName name).1
  | .settleNames => c.settleNames.1
  | .needsContent _ => c
  | @Op.noteContent _ _ lib name content => (c.noteContent lib name content).2.1
  | .noteUnreadable name => c.noteUnreadable name
  | .reject r => c.reject r
  | .conclude => c.conclude.1

/-- The phases of a candidate along a run of operations: before the first operation, and after
each. -/
def phases (c : Candidate) : List Op → List Phase
  | [] => [c.phase]
  | op :: ops => c.phase :: (c.step op).phases ops

/-! ## §2 Each operation keeps the phase or moves it forward -/

variable {c : Candidate}

theorem isTerminal_of_isLive (h : c.isLive = true) : c.phase.isTerminal = false := by
  simpa [isLive] using h

theorem isLive_of_isTerminal (h : c.phase.isTerminal = true) : c.isLive = false := by
  simp [isLive, h]

theorem precedes_noteName (c : Candidate) (name : String) :
    c.phase.Precedes (c.noteName name).1.phase := by
  cases hl : c.isLive
  · simp [noteName, hl, Phase.Precedes.refl]
  · rcases hr : noteNameFiles name c.files with ⟨files, needs, stop⟩
    cases stop
    · -- a first name seen moves a pending candidate to partial satisfaction
      simp only [noteName, hl, hr, Bool.not_true, Bool.false_eq_true, if_false]
      split
      · rename_i hp
        rw [hp.1]
        exact .inr (by decide)
      · exact .refl _
    · simp only [noteName, hl, hr, Bool.not_true, Bool.false_eq_true, if_false, if_true]
      exact Phase.precedes_of_open (isTerminal_of_isLive hl) (.inr rfl)

theorem precedes_settleNames (c : Candidate) : c.phase.Precedes c.settleNames.1.phase := by
  cases hl : c.isLive
  · simp [settleNames, hl, Phase.Precedes.refl]
  · apply Phase.precedes_of_open (isTerminal_of_isLive hl)
    simp only [settleNames, hl, Bool.not_true, Bool.false_eq_true, if_false]
    split
    · exact .inr rfl
    · split
      · exact .inl rfl
      · exact .inr rfl

theorem phase_noteUnreadable (c : Candidate) (name : String) :
    (c.noteUnreadable name).phase = c.phase ∨
      (c.noteUnreadable name).phase = .rejected .unreadable := by
  unfold noteUnreadable
  split
  · exact .inl rfl
  · dsimp only
    split
    · exact .inr rfl
    · exact .inl rfl

theorem precedes_noteUnreadable (c : Candidate) (name : String) :
    c.phase.Precedes (c.noteUnreadable name).phase := by
  cases hl : c.isLive
  · simp [noteUnreadable, hl, Phase.Precedes.refl]
  · apply Phase.precedes_of_open (isTerminal_of_isLive hl)
    rcases phase_noteUnreadable c name with h | h
    · exact .inl h
    · exact .inr (by rw [h]; rfl)

theorem precedes_reject (c : Candidate) (r : Rejection) : c.phase.Precedes (c.reject r).phase := by
  cases hl : c.isLive
  · simp [reject, hl, Phase.Precedes.refl]
  · simp only [reject, hl, if_true]
    exact Phase.precedes_of_open (isTerminal_of_isLive hl) (.inr rfl)

theorem precedes_conclude (c : Candidate) : c.phase.Precedes c.conclude.1.phase := by
  cases hl : c.isLive
  · simp [conclude, hl, Phase.Precedes.refl]
  · apply Phase.precedes_of_open (isTerminal_of_isLive hl)
    -- a live candidate always concludes with a verdict
    simp only [conclude, hl, Bool.not_true, Bool.false_eq_true, if_false]
    right
    split
    · rfl
    · split <;> rfl

theorem precedes_noteContent {σ : Type} [ByteAccess σ] (c : Candidate) (lib : Library)
    (name : String) (content : OpenEntry σ) :
    c.phase.Precedes (c.noteContent lib name content).2.1.phase := by
  cases hl : c.isLive
  · simp [noteContent, hl, Phase.Precedes.refl]
  · -- the files take the entry; the phase is the old one until a rejection or a failure
    rcases hr : noteContentFiles lib name c.files content with ⟨files, outcome, content'⟩
    have hc : ({ c with files } : Candidate).phase = c.phase := rfl
    simp only [noteContent, hl, hr, Bool.not_true, Bool.false_eq_true, if_false]
    cases outcome with
    | settled => exact .refl _
    | rejects r => exact hc ▸ precedes_reject _ r
    | fails e => exact hc ▸ precedes_noteUnreadable _ name

/-- One operation keeps a candidate's phase or moves it forward. -/
theorem precedes_step (c : Candidate) (op : Op) : c.phase.Precedes (c.step op).phase := by
  cases op with
  | noteName name => exact precedes_noteName c name
  | settleNames => exact precedes_settleNames c
  | needsContent => exact .refl _
  | noteContent lib name content => exact precedes_noteContent c lib name content
  | noteUnreadable name => exact precedes_noteUnreadable c name
  | reject r => exact precedes_reject c r
  | conclude => exact precedes_conclude c

/-! ## §3 A verdict is final -/

theorem noteContent_of_terminal {σ : Type} [ByteAccess σ] (h : c.phase.isTerminal = true)
    (lib : Library) (name : String) (content : OpenEntry σ) :
    c.noteContent lib name content = (.ok (), c, content) := by
  simp [noteContent, isLive_of_isTerminal h]

/-- A candidate with a verdict is left as it is by every operation. -/
theorem step_of_terminal (h : c.phase.isTerminal = true) (op : Op) : c.step op = c := by
  have hd := isLive_of_isTerminal h
  cases op with
  | noteContent lib name content => simp [step, noteContent_of_terminal h]
  | needsContent => rfl
  | _ => simp [step, noteName, settleNames, noteUnreadable, reject, conclude, hd]

/-! ## §4 Runs -/

/-- Every phase along a run follows the first. -/
theorem precedes_of_mem_phases (c : Candidate) (ops : List Op) :
    ∀ q ∈ c.phases ops, c.phase.Precedes q := by
  induction ops generalizing c with
  | nil =>
    intro q hq
    rw [phases, List.mem_singleton] at hq
    rw [hq]
    exact .refl _
  | cons op ops ih =>
    intro q hq
    rcases List.mem_cons.1 hq with rfl | hq
    · exact .refl _
    · exact (precedes_step c op).trans (ih (c.step op) q hq)

/-- Whatever operations come, in whatever order, the phase moves only along
`pending → partiallySatisfied → matched | rejected r` and never back, so a verdict never
changes again, reason included. Once the candidate has a verdict every operation leaves it as
it is, no entry name or content is needed any more, and showing it content gives back the open
entry untouched, so no pattern is evaluated. -/
theorem phases_move_forward (c : Candidate) :
    (∀ ops : List Op, (c.phases ops).Pairwise Phase.Precedes) ∧
      (c.phase.isTerminal = true →
        (∀ op : Op, c.step op = c) ∧
        (∀ name, (c.noteName name).2 = false ∧ c.needsContent name = false) ∧
        ∀ {σ : Type} [ByteAccess σ] (lib : Library) (name : String) (content : OpenEntry σ),
          c.noteContent lib name content = (.ok (), c, content)) := by
  refine ⟨fun ops => ?_, fun h => ⟨step_of_terminal h, fun name => ?_,
    fun lib name content => noteContent_of_terminal h lib name content⟩⟩
  · induction ops generalizing c with
    | nil => simp [phases]
    | cons op ops ih =>
      rw [phases, List.pairwise_cons]
      exact ⟨fun q hq => (precedes_step c op).trans (precedes_of_mem_phases _ ops q hq),
        ih (c.step op)⟩
  · have hd := isLive_of_isTerminal h
    exact ⟨by simp [noteName, hd], by simp [needsContent, hd]⟩

/-- A signature that requires one entry, against a container with none: settling the names
rejects it, and from then on it is frozen. -/
theorem phases_move_forward_missing :
    let s : Signature := ⟨1, .zip, none, [⟨.exact "mimetype", .required, []⟩]⟩
    let c := (start s none).settleNames.1
    c.phase = .rejected .missingEntry ∧ (∀ op : Op, c.step op = c) ∧
      (c.noteName "mimetype").2 = false := by
  intro s c
  have hc : c.phase = .rejected .missingEntry := by decide
  have hfinal := (phases_move_forward c).2 (by rw [hc]; rfl)
  exact ⟨hc, hfinal.1, (hfinal.2.1 "mimetype").1⟩

end Candidate

end ContainerProbe
