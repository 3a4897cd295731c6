import Mathlib
import ContainerProbe.Proofs.Tally

/-!
# Identification is correct and fails closed

Identification keeps one state per candidate signature, in a list. The name pass notes every
entry name with every candidate and remembers, per entry, the positions of the candidates that
need its content; the content pass then gives each entry one turn with every candidate. This
module follows the list through both passes: every candidate ends tracked against its
signature (`Candidate.Tracks`), so the verdicts read off at the end are those the signatures
call for.

A container shows a listing when its entries' names are the listing's names and every
reader's delivery begins the listed bytes. Whatever listing a container shows, a matched
signature holds of it: a candidate never matches on content that could not be read. When
every entry opens and reads to its end, the matched signatures are exactly those that hold of
the bytes the readers deliver, in ascending id order.

## Main statements

* `Identify.namePass_named`: the name pass leaves every candidate named, and the positions it
  remembers cover every candidate that may need an entry.
* `Identify.examineEntry_turns`: one entry gives every candidate one turn.
* `Identify.contentPass_tracks`: after the content pass every candidate is tracked over the
  whole listing.
* `identify_correct_fails_closed`: identification succeeds; a matched signature holds of every
  listing the container shows; over a readable container the matched signatures are exactly
  those that hold.
-/

namespace ContainerProbe

/-! ## §1 Lists in step -/

section Lists

variable {α β γ δ : Type}

theorem forall₂_of_getElem? {R : α → β → Prop} :
    ∀ {l₁ : List α} {l₂ : List β}, l₁.length = l₂.length →
      (∀ (i : Nat) a b, l₁[i]? = some a → l₂[i]? = some b → R a b) → List.Forall₂ R l₁ l₂
  | [], [], _, _ => .nil
  | a :: l₁, b :: l₂, hlen, h =>
    .cons (h 0 a b rfl rfl) (forall₂_of_getElem? (by simpa using hlen)
      fun i a' b' h₁ h₂ => h (i + 1) a' b' h₁ h₂)
  | [], _ :: _, hlen, _ => by simp at hlen
  | _ :: _, [], hlen, _ => by simp at hlen

theorem forall₂_getElem? {R : α → β → Prop} :
    ∀ {l₁ : List α} {l₂ : List β}, List.Forall₂ R l₁ l₂ → ∀ {i : Nat} {b : β},
      l₂[i]? = some b → ∃ a, l₁[i]? = some a ∧ R a b
  | _, _, .nil, _, _, h => by simp at h
  | a :: _, _, .cons hab _, 0, _, h => ⟨a, rfl, by simpa using (Option.some.inj h) ▸ hab⟩
  | _, _, .cons _ hrest, i + 1, _, h => forall₂_getElem? hrest (by simpa using h)

theorem forall₂_trans {R : α → β → Prop} {S : β → γ → Prop} {T : α → γ → Prop}
    (H : ∀ a b c, R a b → S b c → T a c) :
    ∀ {l₁ : List α} {l₂ : List β} {l₃ : List γ},
      List.Forall₂ R l₁ l₂ → List.Forall₂ S l₂ l₃ → List.Forall₂ T l₁ l₃
  | _, _, _, .nil, .nil => .nil
  | _, _, _, .cons hab h₁, .cons hbc h₂ => .cons (H _ _ _ hab hbc) (forall₂_trans H h₁ h₂)

/-- Lists in step, filtered on predicates that imply each other along the step, keep the
images of their survivors in order. -/
theorem map_filter_sublist_of_forall₂ {R : α → β → Prop} {p : α → Bool} {q : β → Bool}
    {f : α → δ} {g : β → δ} (H : ∀ a b, R a b → (q b = true → p a = true) ∧ g b = f a) :
    ∀ {l₁ : List α} {l₂ : List β}, List.Forall₂ R l₁ l₂ →
      ((l₂.filter q).map g).Sublist ((l₁.filter p).map f)
  | _, _, .nil => by simp
  | a :: _, b :: _, .cons hab hrest => by
    obtain ⟨himp, heq⟩ := H a b hab
    have ih := map_filter_sublist_of_forall₂ H hrest
    cases hq : q b
    · cases hp : p a
      · simpa [hq, hp] using ih
      · simpa [hq, hp] using ih.cons (f a)
    · simpa [hq, himp hq, heq] using ih

/-- Lists in step, filtered on predicates that agree along the step, keep the same images of
their survivors. -/
theorem map_filter_eq_of_forall₂ {R : α → β → Prop} {p : α → Bool} {q : β → Bool}
    {f : α → δ} {g : β → δ} (H : ∀ a b, R a b → q b = p a ∧ g b = f a) :
    ∀ {l₁ : List α} {l₂ : List β}, List.Forall₂ R l₁ l₂ →
      (l₂.filter q).map g = (l₁.filter p).map f
  | _, _, .nil => by simp
  | a :: _, b :: _, .cons hab hrest => by
    obtain ⟨hpq, heq⟩ := H a b hab
    have ih := map_filter_eq_of_forall₂ H hrest
    cases hp : p a <;> simp [hp, hpq, heq, ih]

end Lists

namespace Identify

variable {lib : Library} {limit : Option Nat}

/-! ## §2 The name pass -/

/-- The positions `n` hold every candidate that may need an entry named `name`: each one with
no verdict that has a file with binary signatures whose path accepts the name. -/
def Covers (cs : List Candidate) (name : String) (n : List Nat) : Prop :=
  ∀ i c, cs[i]? = some c → c.isLive = true →
    (∃ f ∈ c.files, f.bound.accepts name = true ∧ f.requirement.hasBinary = true) → i ∈ n

theorem Covers.descend {cs cs' : List Candidate} {name : String} {n : List Nat}
    (h : Covers cs name n) (hd : List.Forall₂ Candidate.Descends cs cs') : Covers cs' name n := by
  intro i c' hc' hl hf
  obtain ⟨c, hc, hdc⟩ := forall₂_getElem? hd hc'
  exact h i c hc (hdc.live hl) (hdc.exists_accepting_binary hf)

/-- A covered candidate that needs an entry's content is at one of the positions. -/
theorem Covers.mem {cs : List Candidate} {name : String} {n : List Nat} (h : Covers cs name n)
    {i : Nat} {c : Candidate} (hc : cs[i]? = some c) (hneed : c.needsContent name = true) :
    i ∈ n := by
  simp only [Candidate.needsContent, Bool.and_eq_true, List.any_eq_true] at hneed
  obtain ⟨hl, f, hf, hwant⟩ := hneed
  obtain ⟨hacc, hb, -⟩ := FileTally.wantsEntry_iff.1 hwant
  exact h i c hc hl ⟨f, hf, hacc, hb⟩

theorem noteName_fst (name : String) (cs : List Candidate) :
    (noteName name cs).1 = cs.map fun c => (c.noteName name).1 := by
  simp [noteName]

theorem mem_noteName (name : String) (cs : List Candidate) (i : Nat) :
    i ∈ (noteName name cs).2 ↔ ∃ c, cs[i]? = some c ∧ (c.noteName name).2 = true := by
  simp only [noteName, List.mem_map, List.mem_filter, List.mem_zipIdx_iff_getElem?,
    List.getElem?_map]
  constructor
  · rintro ⟨⟨⟨c', b⟩, j⟩, ⟨hj, hb⟩, rfl⟩
    obtain ⟨c, hc, hcb⟩ := Option.map_eq_some_iff.1 hj
    exact ⟨c, hc, by simpa [hcb] using hb⟩
  · rintro ⟨c, hc, hb⟩
    exact ⟨⟨c.noteName name, i⟩, ⟨by simp [hc], hb⟩, rfl⟩

theorem nodup_noteName (name : String) (cs : List Candidate) : (noteName name cs).2.Nodup := by
  -- the positions are a sublist of the positions of all candidates
  have hsub : (((cs.map fun c => c.noteName name).zipIdx.filter (·.1.2)).map Prod.snd).Sublist
      ((cs.map fun c => c.noteName name).zipIdx.map Prod.snd) :=
    List.filter_sublist.map _
  rw [List.zipIdx_map_snd, List.length_map] at hsub
  exact (List.nodup_range' 1).sublist hsub

/-- The name pass leaves every candidate named after all entry names and a later state of
itself; for every entry it remembers distinct positions that cover every candidate that may
need the entry. -/
theorem namePass_named (cname : Option String) (es : List Entry) :
    ∀ {pre : List String} {sigs : List Signature} {cs : List Candidate},
      List.Forall₂ (Candidate.Named cname pre) sigs cs →
      List.Forall₂ (Candidate.Named cname (pre ++ es.map (·.name))) sigs (namePass es cs).1 ∧
      List.Forall₂ Candidate.Descends cs (namePass es cs).1 ∧
      (namePass es cs).2.length = es.length ∧
      ∀ (k : Nat) (e : Entry) (n : List Nat), es[k]? = some e → (namePass es cs).2[k]? = some n →
        n.Nodup ∧ Covers (namePass es cs).1 e.name n := by
  induction es with
  | nil =>
    intro pre sigs cs h
    simp only [namePass, List.map_nil, List.append_nil]
    exact ⟨h, List.forall₂_same.2 fun c _ => Candidate.Descends.refl c, rfl, by simp⟩
  | cons e es ih =>
    intro pre sigs cs h
    have hnoted : List.Forall₂ (Candidate.Named cname (pre ++ [e.name])) sigs
        (cs.map fun c => (c.noteName e.name).1) :=
      List.forall₂_map_right_iff.2 (h.imp fun _ c hn => hn.noteName e.name)
    obtain ⟨hnamed, hdesc, hlen, hcov⟩ := ih hnoted
    rcases hr : namePass es (cs.map fun c => (c.noteName e.name).1) with ⟨named, rest⟩
    rw [hr] at hnamed hdesc hlen hcov
    have heq : namePass (e :: es) cs = (named, (noteName e.name cs).2 :: rest) := by
      simp [namePass, noteName_fst, hr]
    rw [heq]
    have hdesc' : List.Forall₂ Candidate.Descends cs named :=
      forall₂_trans (fun _ _ _ h₁ h₂ => h₁.trans h₂)
        (List.forall₂_map_right_iff.2 (List.forall₂_same.2
          fun c _ => Candidate.descends_noteName c e.name)) hdesc
    refine ⟨by simpa using hnamed, hdesc', by simp [hlen], ?_⟩
    rintro (_ | k) e' n he hn
    · -- the entry just noted: its positions are those of the candidates that said so
      simp only [List.getElem?_cons_zero, Option.some.injEq] at he hn
      subst he hn
      refine ⟨nodup_noteName _ _, fun i c' hc' hl hf => ?_⟩
      obtain ⟨c1, hc1, hdc⟩ := forall₂_getElem? hdesc hc'
      rw [List.getElem?_map] at hc1
      obtain ⟨c0, hc0, rfl⟩ := Option.map_eq_some_iff.1 hc1
      exact (mem_noteName _ _ _).2
        ⟨c0, hc0, Candidate.noteName_needs (hdc.live hl) (hdc.exists_accepting_binary hf)⟩
    · exact hcov k e' n (by simpa using he) (by simpa using hn)

/-! ## §3 One entry's turn with every candidate -/

/-- Showing content to a candidate leaves the open entry faithful. -/
theorem noteContent_faithful (hw : windowOf limit ≤ Size.max) {F : Feed}
    {content : OpenEntry Stream} (hF : content.Faithful lib F limit) (c : Candidate)
    (name : String) : (c.noteContent lib name content).2.2.Faithful lib F limit := by
  cases hl : c.isLive
  · rw [Candidate.noteContent_of_dead hl]
    exact hF
  · rcases hr : Candidate.noteContentFiles lib name c.files content with ⟨files, o, content'⟩
    have hJ := Candidate.noteContentFiles_judged hw (Feed.completes_bytes F) name c.files hF
    rw [hr] at hJ
    rw [(Candidate.noteContent_of_live hl hr).1]
    exact hJ.faithful

/-- Showing an entry to the candidates at distinct positions: each of them is shown the
content through a faithful open entry, every other candidate is left as it was, and the open
entry stays faithful. -/
theorem showContent_spec (hw : windowOf limit ≤ Size.max) {F : Feed} (name : String) :
    ∀ (is : List Nat), is.Nodup → ∀ (cs : List Candidate) (content : OpenEntry Stream),
      content.Faithful lib F limit → ∀ (shown : Nat) (first : Option Fault),
      (showContent lib name is cs content shown first).1.length = cs.length ∧
      (showContent lib name is cs content shown first).2.1.Faithful lib F limit ∧
      (∀ i, i ∉ is → (showContent lib name is cs content shown first).1[i]? = cs[i]?) ∧
      (∀ i ∈ is, ∀ c, cs[i]? = some c → ∃ content' : OpenEntry Stream,
        content'.Faithful lib F limit ∧
        (showContent lib name is cs content shown first).1[i]? =
          some (c.noteContent lib name content').2.1)
  | [], _, cs, content, hF, shown, first => ⟨rfl, hF, fun _ _ => rfl, fun _ hi => by cases hi⟩
  | j :: js, hnd, cs, content, hF, shown, first => by
    obtain ⟨hj, hnd'⟩ := List.nodup_cons.1 hnd
    cases hcj : cs[j]? with
    | none =>
      -- no candidate at this position: nothing is shown
      simp only [showContent, hcj]
      obtain ⟨hlen, hF', hout, hin⟩ := showContent_spec hw name js hnd' cs content hF (shown + 1)
        first
      refine ⟨hlen, hF', fun i hi => hout i fun h => hi (List.mem_cons_of_mem _ h), ?_⟩
      intro i hi c hc
      rcases List.mem_cons.1 hi with rfl | hi
      · simp [hcj] at hc
      · exact hin i hi c hc
    | some cj =>
      have hjlt : j < cs.length := (List.getElem?_eq_some_iff.1 hcj).1
      have hF1 := noteContent_faithful hw hF cj name
      rcases hn : cj.noteContent lib name content with ⟨r, cj', content'⟩
      rw [hn] at hF1
      simp only [showContent, hcj, hn]
      -- the rest of the positions see the list with this candidate replaced
      have ih := showContent_spec hw name js hnd' (cs.set j cj') content' hF1
      refine ⟨?_, (ih _ _).2.1, fun i hi => ?_, fun i hi c hc => ?_⟩
      · rw [(ih _ _).1, List.length_set]
      · have hij : j ≠ i := fun h => hi (h ▸ List.mem_cons_self)
        rw [(ih _ _).2.2.1 i fun h => hi (List.mem_cons_of_mem _ h), List.getElem?_set_ne hij]
      · rcases List.mem_cons.1 hi with rfl | hi
        · rw [hcj] at hc
          obtain rfl := Option.some.inj hc
          refine ⟨content, hF, ?_⟩
          rw [(ih _ _).2.2.1 _ hj, List.getElem?_set_self hjlt, hn]
        · have hij : j ≠ i := fun h => hj (h ▸ hi)
          exact (ih _ _).2.2.2 i hi c (by rw [List.getElem?_set_ne hij]; exact hc)

/-- Marking an entry unreadable for the candidates at distinct positions notes it for each of
them and leaves every other candidate as it was. -/
theorem markUnreadable_spec (name : String) :
    ∀ (is : List Nat), is.Nodup → ∀ (cs : List Candidate),
      (markUnreadable name is cs).length = cs.length ∧
      ∀ i, (markUnreadable name is cs)[i]? =
        if i ∈ is then cs[i]?.map (·.noteUnreadable name) else cs[i]?
  | [], _, cs => by simp [markUnreadable]
  | j :: js, hnd, cs => by
    obtain ⟨hj, hnd'⟩ := List.nodup_cons.1 hnd
    have hstep : markUnreadable name (j :: js) cs =
        markUnreadable name js (cs.modify j (·.noteUnreadable name)) := rfl
    obtain ⟨hlen, hget⟩ := markUnreadable_spec name js hnd' (cs.modify j (·.noteUnreadable name))
    refine ⟨by rw [hstep, hlen, List.length_modify], fun i => ?_⟩
    rw [hstep, hget, List.getElem?_modify]
    by_cases hij : j = i
    · subst hij
      simp [hj]
    · by_cases hi : i ∈ js
      · simp [hij, hi]
      · simp [hij, hi, Ne.symm hij]

/-- Candidates in step with positions: those at the positions took a turn of their own, the
others wanted nothing and were left as they were. -/
theorem turns_of_positions {e : Entry} {cs cs' : List Candidate} {live : List Nat}
    (hlen : cs'.length = cs.length)
    (hskip : ∀ i c, cs[i]? = some c → i ∉ live → c.needsContent e.name = false)
    (hout : ∀ i, i ∉ live → cs'[i]? = cs[i]?)
    (hin : ∀ i ∈ live, ∀ c c', cs[i]? = some c → cs'[i]? = some c' →
      Candidate.Turn lib limit e c c') :
    List.Forall₂ (Candidate.Turn lib limit e) cs cs' := by
  refine forall₂_of_getElem? hlen.symm fun i c c' hc hc' => ?_
  by_cases hi : i ∈ live
  · exact hin i hi c c' hc hc'
  · rw [hout i hi, hc] at hc'
    obtain rfl := Option.some.inj hc'
    exact .skip (hskip i c hc hi)

/-- One entry, examined without a deadline and without the prefilter, gives every candidate
one turn, when its positions are distinct and cover every candidate that may need it. -/
theorem examineEntry_turns {config : ScanSettings} (hw : windowOf config.scanLimit ≤ Size.max)
    (hcfg : config.usePrefilter = false) (hexp : config.expired = false) (e : Entry)
    {n : List Nat} (hnd : n.Nodup) (p : Progress) (hcov : Covers p.candidates e.name n) :
    ∃ p', examineEntry lib config e n p = .ok p' ∧
      List.Forall₂ (Candidate.Turn lib config.scanLimit e) p.candidates p'.candidates := by
  -- a candidate that needs the entry is covered, and kept by the filter on needs
  have hskip : ∀ i c, p.candidates[i]? = some c →
      i ∉ n.filter (fun i => (p.candidates[i]?.map (·.needsContent e.name)) = some true) →
      c.needsContent e.name = false := by
    intro i c hc hi
    cases hneed : c.needsContent e.name
    · rfl
    · exact absurd (List.mem_filter.2 ⟨hcov.mem hc hneed, by simp [hc, hneed]⟩) hi
  have hnd' := hnd.filter (fun i => (p.candidates[i]?.map (·.needsContent e.name)) = some true)
  unfold examineEntry
  cases hn : n.isEmpty
  · simp only [hexp, Bool.false_eq_true, ↓reduceIte]
    generalize n.filter (fun i => (p.candidates[i]?.map (·.needsContent e.name)) = some true)
      = live at hskip hnd' ⊢
    cases hle : live.isEmpty
    · simp only [Bool.false_eq_true, ↓reduceIte]
      cases hc : e.content with
      | error failure =>
        -- the entry cannot be opened: each candidate that needs it notes it unreadable
        obtain ⟨hlen, hget⟩ := markUnreadable_spec e.name live hnd' p.candidates
        refine ⟨_, rfl, turns_of_positions hlen hskip (fun i hi => by simp [hget, hi]) ?_⟩
        intro i hi c c' hc1 hc2
        rw [hget, if_pos hi, hc1] at hc2
        obtain rfl := Option.some.inj hc2
        exact .unopened hc
      | ok feed =>
        -- the entry is opened once and shown to each candidate that needs it
        have hF : (OpenEntry.make e.name (Stream.make feed config.scanLimit)
            config.usePrefilter).Faithful lib feed config.scanLimit := by
          rw [hcfg]
          exact OpenEntry.faithful_make e.name feed config.scanLimit
        obtain ⟨hlen, -, hout, hin⟩ := showContent_spec hw e.name live hnd' p.candidates _ hF 0
          none
        refine ⟨_, rfl, turns_of_positions hlen hskip hout ?_⟩
        intro i hi c c' hc1 hc2
        obtain ⟨content', hF', hget⟩ := hin i hi c hc1
        rw [hget] at hc2
        obtain rfl := Option.some.inj hc2
        exact .shown hc hF'
    · refine ⟨p, by simp, turns_of_positions rfl hskip (fun _ _ => rfl) fun i hi => ?_⟩
      simp [List.isEmpty_iff.1 hle] at hi
  · refine ⟨p, by simp, turns_of_positions rfl hskip (fun _ _ => rfl) fun i hi => ?_⟩
    simp [List.isEmpty_iff.1 hn] at hi

/-! ## §4 The content pass -/

/-- The run lemma of the content pass. When the entries still to come show the rest `vs` of a
listing, each with distinct positions covering every candidate that may need it, and every
candidate is tracked over the part `done` already shown, the pass succeeds and leaves every
candidate tracked over the whole listing. -/
theorem contentPass_tracks {config : ScanSettings} (hw : windowOf config.scanLimit ≤ Size.max)
    (hcfg : config.usePrefilter = false) (hexp : config.expired = false)
    {cname : Option String} {clean : Prop} {v : List (String × ByteArray)}
    {sigs : List Signature}
    (hnames : ∀ s ∈ sigs, ∀ df ∈ s.files, df.NamesBelow lib.patterns.length) :
    ∀ (es : List Entry) (ns : List (List Nat)) (done vs : List (String × ByteArray))
      (p : Progress), done ++ vs = v →
      List.Forall₂ (fun e x => e.name = x.1 ∧ ∀ F, e.content = .ok F → F.Completes x.2) es vs →
      (clean → ∀ e ∈ es, ∃ F, e.content = .ok F ∧ F.failure = none) →
      ns.length = es.length →
      (∀ (k : Nat) (e : Entry) (n : List Nat), es[k]? = some e → ns[k]? = some n →
        n.Nodup ∧ Covers p.candidates e.name n) →
      List.Forall₂ (Candidate.Tracks lib config.scanLimit cname clean v done) sigs p.candidates →
      ∃ p', contentPass lib config es ns p = .ok p' ∧
        List.Forall₂ (Candidate.Tracks lib config.scanLimit cname clean v v) sigs p'.candidates
  | [], _, done, [], p, hv, .nil, _, _, _, htr => by
    rw [List.append_nil] at hv
    subst hv
    exact ⟨p, rfl, htr⟩
  | e :: es, ns, done, x :: vs, p, hv, .cons hx hshow, hclean, hlen, hpos, htr => by
    obtain _ | ⟨n, ns⟩ := ns
    · simp at hlen
    obtain ⟨hnd, hcov⟩ := hpos 0 e n rfl rfl
    obtain ⟨p', hex, hturns⟩ := examineEntry_turns hw hcfg hexp e hnd p hcov
    have hxe : x = (e.name, x.2) := by rw [hx.1]
    -- every candidate takes its turn with the entry and stays tracked
    have htr' : List.Forall₂ (Candidate.Tracks lib config.scanLimit cname clean v (done ++ [x]))
        sigs p'.candidates := by
      refine forall₂_trans (fun s c c' hs ht => ?_)
        ((List.forall₂_and_left _ _).2 ⟨hnames, htr⟩) hturns
      have hmem : (e.name, x.2) ∈ v := by
        rw [← hxe, ← hv]
        simp
      rw [hxe]
      exact hs.2.turn hw ht hx.2 (fun hc => hclean hc e List.mem_cons_self) hmem hs.1
    have hdesc : List.Forall₂ Candidate.Descends p.candidates p'.candidates :=
      hturns.imp fun _ _ ht => ht.descends hw
    obtain ⟨p'', hrun, htr''⟩ := contentPass_tracks hw hcfg hexp hnames es ns (done ++ [x]) vs p'
      (by simpa using hv) hshow (fun hc e' he' => hclean hc e' (List.mem_cons_of_mem _ he'))
      (by simpa using hlen)
      (fun k e' n' he hn =>
        ⟨(hpos (k + 1) e' n' he hn).1, (hpos (k + 1) e' n' he hn).2.descend hdesc⟩)
      htr'
    refine ⟨p'', ?_, htr''⟩
    rw [contentPass, hex]
    exact hrun

end Identify

/-! ## §5 Identification -/

/-- The names of a container's entries are the names of every listing it shows. -/
theorem Container.Shows.names {c : Container} {v : List (String × ByteArray)} (hv : c.Shows v) :
    c.entries.map (·.name) = v.map Prod.fst := by
  unfold Container.Shows at hv
  generalize c.entries = es at hv
  induction hv with
  | nil => rfl
  | cons hx _ ih => simp [hx.1, ih]

/-- The candidates a resolved library offers name only its own patterns. -/
theorem Library.Resolves.candidates_namesBelow {lib : Library} (h : lib.Resolves)
    (kind : ContainerKind) :
    ∀ s ∈ lib.candidates kind, ∀ df ∈ s.files, df.NamesBelow lib.patterns.length := by
  intro s hs df hdf
  have hmem : s ∈ lib.signatures := (List.mem_filter.1 (List.mem_mergeSort.1 hs)).1
  exact h s hmem df hdf

/-- The matched ids are those of the final states that conclude with a match, in order. -/
theorem Identify.matched_eq (cs : List Candidate) :
    ((cs.zip (cs.map fun s => (s.conclude).2)).filter (·.2 = .matched)).map (·.1.signature.id) =
      (cs.filter fun s => (s.conclude).2 = .matched).map (·.signature.id) := by
  have hzip : cs.zip (cs.map fun s => (s.conclude).2) = cs.map fun s => (s, (s.conclude).2) := by
    simp [List.zip_eq_zipWith, List.zipWith_map_right, List.zipWith_self]
  rw [hzip, List.filter_map, List.map_map]
  rfl

open Identify in
/-- Identification is the content pass from the settled candidates of the name pass, read off
by final verdict. -/
theorem identify_eq_map_contentPass (lib : Library) (config : ScanSettings) (c : Container) :
    ∃ (p₀ : Progress) (f : Progress → Identification),
      p₀.candidates = (namePass c.entries ((lib.candidates c.kind).map fun s =>
        Candidate.start s c.name)).1.map (·.settleNames.1) ∧
      (∀ p, (f p).matched =
        (p.candidates.filter fun s => (s.conclude).2 = .matched).map (·.signature.id) ∧
        (f p).puids = puidsOf lib (f p).matched) ∧
      identify lib config c = (contentPass lib config c.entries (namePass c.entries
        ((lib.candidates c.kind).map fun s => Candidate.start s c.name)).2 p₀).map f := by
  refine ⟨_, _, rfl, fun p => ⟨?_, rfl⟩, rfl⟩
  exact matched_eq p.candidates

open Identify in
/-- Identification without the prefilter and without a deadline succeeds, and reads its
matched ids off final states each tracked against its signature over every listing the
container shows; the tracking is clean when the container is readable. -/
theorem identify_tracks {lib : Library} (hres : lib.Resolves) (config : ScanSettings)
    (hw : windowOf config.scanLimit ≤ Size.max) (hcfg : config.usePrefilter = false)
    (hexp : config.expired = false) (c : Container) :
    ∃ r cs, identify lib config c = .ok r ∧
      r.matched = (cs.filter fun s => (s.conclude).2 = .matched).map (·.signature.id) ∧
      r.puids = puidsOf lib r.matched ∧ ∀ v, c.Shows v →
        List.Forall₂ (Candidate.Tracks lib config.scanLimit c.name c.Readable v v)
          (lib.candidates c.kind) cs := by
  obtain ⟨p₀, f, hp₀, hf, hid⟩ := identify_eq_map_contentPass lib config c
  have hstart : List.Forall₂ (Candidate.Named c.name []) (lib.candidates c.kind)
      ((lib.candidates c.kind).map fun s => Candidate.start s c.name) :=
    List.forall₂_map_right_iff.2 (List.forall₂_same.2 fun s _ => Candidate.named_start c.name s)
  obtain ⟨hnamed, -, hlen, hpos⟩ := namePass_named c.name c.entries hstart
  generalize namePass c.entries ((lib.candidates c.kind).map fun s => Candidate.start s c.name)
    = np at hnamed hlen hpos hp₀ hid
  obtain ⟨named, needers⟩ := np
  dsimp only at hnamed hlen hpos hp₀ hid
  rw [List.nil_append] at hnamed
  -- settling keeps every position covered
  have hdesc : List.Forall₂ Candidate.Descends named p₀.candidates := by
    rw [hp₀]
    exact List.forall₂_map_right_iff.2
      (List.forall₂_same.2 fun n _ => Candidate.descends_settleNames n)
  have hcov : ∀ (k : Nat) (e : Entry) (n : List Nat), c.entries[k]? = some e →
      needers[k]? = some n → n.Nodup ∧ Covers p₀.candidates e.name n :=
    fun k e n he hn => ⟨(hpos k e n he hn).1, (hpos k e n he hn).2.descend hdesc⟩
  -- the content pass, over every listing the container shows
  have hrun : ∀ v, c.Shows v → ∃ p, contentPass lib config c.entries needers p₀ = .ok p ∧
      List.Forall₂ (Candidate.Tracks lib config.scanLimit c.name c.Readable v v)
        (lib.candidates c.kind) p.candidates := by
    intro v hv
    rw [hv.names] at hnamed
    have htr : List.Forall₂ (Candidate.Tracks lib config.scanLimit c.name c.Readable v [])
        (lib.candidates c.kind) p₀.candidates := by
      rw [hp₀]
      exact List.forall₂_map_right_iff.2 (hnamed.imp fun _ _ h => h.settle c.Readable)
    exact contentPass_tracks hw hcfg hexp (hres.candidates_namesBelow c.kind) c.entries needers
      [] v p₀ rfl hv id hlen hcov htr
  obtain ⟨p, hp, -⟩ := hrun c.listing c.shows_listing
  refine ⟨f p, p.candidates, by rw [hid, hp]; rfl, (hf p).1, (hf p).2, fun v hv => ?_⟩
  -- the run does not depend on the listing it is tracked against
  obtain ⟨p', hp', htr⟩ := hrun v hv
  rw [hp] at hp'
  obtain rfl := Except.ok.inj hp'
  exact htr

section Tracked

variable {lib : Library} {limit : Option Nat} {cname : Option String} {clean : Prop}
  {v : List (String × ByteArray)} {sigs : List Signature} {cs : List Candidate}

/-- Final states tracked over a listing match only signatures that hold of it. -/
theorem matched_sublist_of_tracks
    (h : List.Forall₂ (Candidate.Tracks lib limit cname clean v v) sigs cs) :
    ((cs.filter fun s => (s.conclude).2 = .matched).map (·.signature.id)).Sublist
      ((sigs.filter (Signature.holds lib limit cname v)).map (·.id)) := by
  refine map_filter_sublist_of_forall₂ (fun s x hx => ⟨fun hm => ?_, hx.signature ▸ rfl⟩) h
  exact hx.conclude_matched (of_decide_eq_true hm)

/-- Final states tracked over a clean listing match exactly the signatures that hold of it. -/
theorem matched_eq_of_tracks (hc : clean)
    (h : List.Forall₂ (Candidate.Tracks lib limit cname clean v v) sigs cs) :
    (cs.filter fun s => (s.conclude).2 = .matched).map (·.signature.id) =
      (sigs.filter (Signature.holds lib limit cname v)).map (·.id) := by
  refine map_filter_eq_of_forall₂ (fun s x hx => ⟨?_, hx.signature ▸ rfl⟩) h
  cases hs : s.holds lib limit cname v
  · exact decide_eq_false fun hm => by simp [hx.conclude_matched hm] at hs
  · exact decide_eq_true (hx.conclude_of_holds hc hs)

end Tracked

/-- Over a built catalog with no deadline passed, identification of a readable container
succeeds under any prefilter setting, and matches exactly the signatures that hold of the
delivered bytes. -/
theorem identify_readable_matched (cat : Catalog) (hcat : cat.Built) (config : ScanSettings)
    (hw : windowOf config.scanLimit ≤ Size.max) (hexp : config.expired = false) {c : Container}
    (hread : c.Readable) :
    ∃ r, identify (Library.ofCatalog cat) config c = .ok r ∧
      r.matched = (((Library.ofCatalog cat).candidates c.kind).filter
        (Signature.holds (Library.ofCatalog cat) config.scanLimit c.name c.listing)).map (·.id) ∧
      r.puids = Identify.puidsOf (Library.ofCatalog cat) r.matched := by
  rw [identify_unfiltered cat config hw c]
  obtain ⟨r, cs, hid, hmatched, hpuids, htracks⟩ :=
    identify_tracks hcat.resolves { config with usePrefilter := false } hw rfl hexp c
  refine ⟨r, hid, ?_, hpuids⟩
  rw [hmatched]
  exact matched_eq_of_tracks hread (htracks c.listing c.shows_listing)

/-- Identification is correct and fails closed. Over a catalog built from definition
documents, with no deadline passed, under any prefilter setting and any scan limit that fits a
window: identification succeeds; every matched signature holds of every listing the container
shows, whatever the bytes its readers did not deliver; and when every entry opens and reads to
its end, the matched ids are exactly those of the signatures that hold of the delivered bytes,
in ascending order. -/
theorem identify_correct_fails_closed (cat : Catalog) (hcat : cat.Built) (config : ScanSettings)
    (hw : windowOf config.scanLimit ≤ Size.max) (hexp : config.expired = false) (c : Container) :
    ∃ r, identify (Library.ofCatalog cat) config c = .ok r ∧
      (∀ v, c.Shows v → r.matched.Sublist
        ((((Library.ofCatalog cat).candidates c.kind).filter
          (Signature.holds (Library.ofCatalog cat) config.scanLimit c.name v)).map (·.id))) ∧
      (c.Readable → r.matched =
        (((Library.ofCatalog cat).candidates c.kind).filter
          (Signature.holds (Library.ofCatalog cat) config.scanLimit c.name c.listing)).map
            (·.id)) := by
  -- the prefilter changes nothing, so the passes run without it
  rw [identify_unfiltered cat config hw c]
  obtain ⟨r, cs, hid, hmatched, -, htracks⟩ :=
    identify_tracks hcat.resolves { config with usePrefilter := false } hw rfl hexp c
  refine ⟨r, hid, fun v hv => ?_, fun hread => ?_⟩
  · rw [hmatched]
    exact matched_sublist_of_tracks (htracks v hv)
  · rw [hmatched]
    exact matched_eq_of_tracks hread (htracks c.listing c.shows_listing)

/-- A document with one signature for text documents in zip archives, which looks for
`opendocument` in the `mimetype` entry and requires a `content.xml`, compiles to a catalog of one
pattern. Identifying such a document then succeeds, and the signature, the one that can match,
does. -/
theorem identify_correct_fails_closed_opendocument :
    let doc : Definitions :=
      { signatures := [{ id := 1, container := .zip,
                         files := [{ path := "mimetype",
                                     binary := [[{ sequence := "'opendocument'" }]] },
                                   { path := "content.xml" }] }],
        formats := [{ signatureId := 1, puid := "fmt/291" }] }
    let cat : Catalog :=
      { patterns := [⟨"'opendocument'", .floating, [.literal "opendocument".toUTF8.data.toList]⟩],
        signatures := [{ id := 1, container := .zip, description := none,
                         files := [{ path := .exact "mimetype", presence := .required,
                                     binary := [[0]] },
                                   { path := .exact "content.xml", presence := .required,
                                     binary := [] }] }],
        formats := [(1, ["fmt/291"])] }
    let archive : Container :=
      { kind := .zip,
        entries := [⟨"mimetype", .ok (.ofBytes "application/vnd.oasis.opendocument.text".toUTF8)⟩,
                    ⟨"content.xml", .ok (.ofBytes "<office:document-content/>".toUTF8)⟩] }
    ({} : Catalog).add doc = .ok cat ∧ cat.Built ∧
      windowOf ({} : ScanSettings).scanLimit ≤ Size.max ∧ ({} : ScanSettings).expired = false ∧
      (((Library.ofCatalog cat).candidates archive.kind).filter
        (Signature.holds (Library.ofCatalog cat) ({} : ScanSettings).scanLimit archive.name
          archive.listing)).map (·.id) = [1] ∧
      ∃ r, identify (Library.ofCatalog cat) {} archive = .ok r ∧
        (∀ v, archive.Shows v → r.matched.Sublist
          ((((Library.ofCatalog cat).candidates archive.kind).filter
            (Signature.holds (Library.ofCatalog cat) ({} : ScanSettings).scanLimit archive.name
              v)).map (·.id))) ∧
        (archive.Readable → r.matched =
          (((Library.ofCatalog cat).candidates archive.kind).filter
            (Signature.holds (Library.ofCatalog cat) ({} : ScanSettings).scanLimit archive.name
              archive.listing)).map (·.id)) := by
  intro doc cat archive
  have hadd : ({} : Catalog).add doc = .ok cat := by decide +kernel
  have hcat : cat.Built := .add doc (.empty {}) hadd
  exact ⟨hadd, hcat, Nat.le_refl _, rfl, by decide +kernel,
    identify_correct_fails_closed cat hcat {} (Nat.le_refl _) rfl archive⟩

end ContainerProbe
