import Mathlib
import ContainerProbe.Library.Catalog

/-!
# What a catalog keeps true across documents

Documents are added to a catalog one after another, and a document that fails leaves the
catalog as it was. Whatever the documents, the catalog keeps these facts:

* its pattern table holds each pattern once, so looking a pattern up finds its own id;
* each signature is its definition compiled against the table: a pattern id in a file's
  alternative names the pattern that the definition's byte sequence compiles to;
* no two signatures share an id, and every pattern of the table is named by a signature;
* the format table has one entry per signature, lists each format identifier once, and takes
  each from a mapping of an added document.

The ids a document's patterns get are handed out before the document is known to compile:
an id from the table, or the next free one past the patterns pending from the document so
far. The invariant that carries this is `Catalog.Grows`: the pending patterns only grow, the
table with them holds each pattern once, and every id they add is named by what was compiled.

## Main statements

* `Catalog.Consistent.add`: adding a document keeps the catalog consistent.
* `documents_build_consistent_catalog`: after any run the catalog is consistent, and it is
  the one the accepted documents build when added one after another, each succeeding.
-/

namespace ContainerProbe

/-! ## §1 Compiled from a definition -/

/-- Pattern id `id` names, in the table `table`, the pattern the byte sequence compiles to. -/
def NamesCompiled (table : List Pattern) (id : Nat) (seq : SequenceDef) : Prop :=
  ∃ p, seq.compile = .ok p ∧ table[id]? = some p

/-- A declared file is its definition compiled against the pattern table `table`. -/
structure DeclaredFile.CompiledFrom (table : List Pattern) (f : DeclaredFile) (d : FileDef) :
    Prop where
  path : EntryPath.parse d.path = .ok f.path
  presence : f.presence = d.presence
  binary : List.Forall₂ (List.Forall₂ (NamesCompiled table)) f.binary d.binary

/-- A signature is its definition compiled against the pattern table `table`. -/
structure Signature.CompiledFrom (table : List Pattern) (s : Signature) (d : SignatureDef) :
    Prop where
  id : s.id = d.id
  container : s.container = d.container
  description : s.description = d.description
  files : List.Forall₂ (DeclaredFile.CompiledFrom table) s.files d.files

/-- Pattern id `k` stands in an alternative of the file. -/
def DeclaredFile.Uses (f : DeclaredFile) (k : Nat) : Prop := ∃ conj ∈ f.binary, k ∈ conj

/-- Pattern id `k` stands in an alternative of a file of the signature. -/
def Signature.Uses (s : Signature) (k : Nat) : Prop := ∃ f ∈ s.files, f.Uses k

section Table

variable {table table' : List Pattern}

theorem getElem?_grow (ht : table <+: table') {i : Nat} {p : Pattern}
    (h : table[i]? = some p) : table'[i]? = some p := by
  obtain ⟨hi, rfl⟩ := List.getElem?_eq_some_iff.1 h
  exact List.prefix_iff_getElem?.1 ht i hi

/-- In a table without repeats, looking a pattern up is the inverse of indexing. -/
theorem idxOf?_eq_some_iff_of_nodup (hnd : table.Nodup) {i : Nat} {p : Pattern} :
    table.idxOf? p = some i ↔ table[i]? = some p := by
  rw [List.idxOf?_eq_some_iff, List.getElem?_eq_some_iff]
  refine ⟨fun ⟨hi, hp, _⟩ => ⟨hi, hp⟩, fun ⟨hi, hp⟩ => ⟨hi, hp, fun j hj heq => ?_⟩⟩
  -- an earlier index holding `p` would be a repeat
  have := (hnd.getElem_inj_iff).1 (heq.trans hp.symm)
  omega

theorem NamesCompiled.mono (ht : table <+: table') {id : Nat} {seq : SequenceDef}
    (h : NamesCompiled table id seq) : NamesCompiled table' id seq :=
  let ⟨p, hp, hid⟩ := h
  ⟨p, hp, getElem?_grow ht hid⟩

theorem DeclaredFile.CompiledFrom.mono (ht : table <+: table') {f : DeclaredFile} {d : FileDef}
    (h : f.CompiledFrom table d) : f.CompiledFrom table' d :=
  ⟨h.path, h.presence, h.binary.imp fun _ _ hc => hc.imp fun _ _ => NamesCompiled.mono ht⟩

theorem Signature.CompiledFrom.mono (ht : table <+: table') {s : Signature} {d : SignatureDef}
    (h : s.CompiledFrom table d) : s.CompiledFrom table' d :=
  ⟨h.id, h.container, h.description, h.files.imp fun _ _ => DeclaredFile.CompiledFrom.mono ht⟩

end Table

/-! ## §2 Pending patterns -/

namespace Catalog

variable {c : Catalog}

/-- The patterns pending from a document grow from `pending` to `pending'`: the table with
them still holds each pattern once, and every id they add satisfies `new`. -/
structure Grows (c : Catalog) (pending pending' : List Pattern) (new : Nat → Prop) : Prop where
  sub : pending <+: pending'
  nodup : (c.patterns ++ pending').Nodup
  new : ∀ k, (c.patterns ++ pending).length ≤ k → k < (c.patterns ++ pending').length → new k

namespace Grows

variable {pending pending₁ pending₂ : List Pattern} {new new' : Nat → Prop}

theorem refl (h : (c.patterns ++ pending).Nodup) : c.Grows pending pending new :=
  ⟨List.prefix_refl _, h, fun _ hlo hhi => absurd hhi (Nat.not_lt.2 hlo)⟩

theorem trans (h₁ : c.Grows pending pending₁ new) (h₂ : c.Grows pending₁ pending₂ new') :
    c.Grows pending pending₂ fun k => new k ∨ new' k := by
  refine ⟨h₁.sub.trans h₂.sub, h₂.nodup, fun k hlo hhi => ?_⟩
  by_cases hk : k < (c.patterns ++ pending₁).length
  · exact .inl (h₁.new k hlo hk)
  · exact .inr (h₂.new k (Nat.le_of_not_lt hk) hhi)

theorem imp (h : c.Grows pending pending₁ new) (hn : ∀ k, new k → new' k) :
    c.Grows pending pending₁ new' :=
  ⟨h.sub, h.nodup, fun k hlo hhi => hn k (h.new k hlo hhi)⟩

/-- Growth over a list compiled item by item: an id added is named by the head or by one of
the rest. -/
theorem cons {α : Type} {P : α → Nat → Prop} {x : α} {xs : List α}
    (h₁ : c.Grows pending pending₁ (P x)) (h₂ : c.Grows pending₁ pending₂ fun k => ∃ y ∈ xs, P y k) :
    c.Grows pending pending₂ fun k => ∃ y ∈ x :: xs, P y k := by
  refine (h₁.trans h₂).imp fun k hk => ?_
  rcases hk with hk | ⟨y, hy, hk⟩
  · exact ⟨x, .head _, hk⟩
  · exact ⟨y, .tail _ hy, hk⟩

theorem table_sub (h : c.Grows pending pending₁ new) :
    c.patterns ++ pending <+: c.patterns ++ pending₁ :=
  (List.prefix_append_right_inj _).2 h.sub

end Grows

variable {pending pending' : List Pattern}

/-- The id handed out for a pattern names it once the pending patterns are added; a pattern
new to both the table and the pending ones is added with the next free id. -/
theorem pendingId_grows {p : Pattern} {i : Nat} (hnd : (c.patterns ++ pending).Nodup)
    (h : c.pendingId pending p = (i, pending')) :
    c.Grows pending pending' (· = i) ∧ (c.patterns ++ pending')[i]? = some p := by
  unfold pendingId at h
  split at h
  · rename_i j hj
    obtain ⟨rfl, rfl⟩ := Prod.mk.inj h
    obtain ⟨hlt, hget, -⟩ := List.idxOf?_eq_some_iff.1 hj
    refine ⟨.refl hnd, ?_⟩
    rw [List.getElem?_append_left hlt, List.getElem?_eq_getElem hlt, hget]
  · rename_i hold
    split at h
    · rename_i j hj
      obtain ⟨rfl, rfl⟩ := Prod.mk.inj h
      obtain ⟨hlt, hget, -⟩ := List.idxOf?_eq_some_iff.1 hj
      refine ⟨.refl hnd, ?_⟩
      rw [List.getElem?_append_right (Nat.le_add_right _ _), Nat.add_sub_cancel_left,
        List.getElem?_eq_getElem hlt, hget]
    · rename_i hpend
      obtain ⟨rfl, rfl⟩ := Prod.mk.inj h
      have hp : p ∉ c.patterns ++ pending := by
        rw [List.mem_append, not_or]
        exact ⟨List.idxOf?_eq_none_iff.1 hold, List.idxOf?_eq_none_iff.1 hpend⟩
      refine ⟨⟨List.prefix_append _ _, ?_, fun k hlo hhi => ?_⟩, ?_⟩
      · rw [← List.append_assoc, ← List.concat_eq_append]
        exact hnd.concat hp
      · simp only [List.length_append, List.length_singleton] at hlo hhi
        omega
      · rw [← List.append_assoc]
        simp

theorem compileConjunction_grows {seqs : List SequenceDef} {ids : List Nat}
    (hnd : (c.patterns ++ pending).Nodup)
    (h : c.compileConjunction pending seqs = .ok (ids, pending')) :
    c.Grows pending pending' (· ∈ ids) ∧
      List.Forall₂ (NamesCompiled (c.patterns ++ pending')) ids seqs := by
  induction seqs generalizing pending ids with
  | nil =>
    obtain ⟨rfl, rfl⟩ := Prod.mk.inj (Except.ok.inj h)
    exact ⟨.refl hnd, .nil⟩
  | cons s rest ih =>
    unfold compileConjunction at h
    split at h
    · cases h
    · rename_i p hp
      rcases hid : c.pendingId pending p with ⟨i, pending1⟩
      rw [hid] at h
      dsimp only at h
      split at h
      · cases h
      · rename_i ids' pending2 hrest
        obtain ⟨rfl, rfl⟩ := Prod.mk.inj (Except.ok.inj h)
        obtain ⟨hg, hi⟩ := pendingId_grows hnd hid
        obtain ⟨hg', hids⟩ := ih hg.nodup hrest
        refine ⟨(hg.trans hg').imp fun k hk => ?_,
          .cons ⟨p, hp, getElem?_grow hg'.table_sub hi⟩ hids⟩
        rcases hk with rfl | hk
        · exact .head _
        · exact .tail _ hk

theorem compileBinary_grows {id : Nat} {path : String} {alts : List (List SequenceDef)}
    {binary : List (List Nat)} (hnd : (c.patterns ++ pending).Nodup)
    (h : c.compileBinary id path pending alts = .ok (binary, pending')) :
    c.Grows pending pending' (fun k => ∃ conj ∈ binary, k ∈ conj) ∧
      List.Forall₂ (List.Forall₂ (NamesCompiled (c.patterns ++ pending'))) binary alts := by
  induction alts generalizing pending binary with
  | nil =>
    obtain ⟨rfl, rfl⟩ := Prod.mk.inj (Except.ok.inj h)
    exact ⟨.refl hnd, .nil⟩
  | cons conj rest ih =>
    unfold compileBinary at h
    split at h
    · cases h
    · split at h
      · cases h
      · rename_i ids pending1 hconj
        split at h
        · cases h
        · rename_i alts' pending2 hrest
          obtain ⟨rfl, rfl⟩ := Prod.mk.inj (Except.ok.inj h)
          obtain ⟨hg, hids⟩ := compileConjunction_grows hnd hconj
          obtain ⟨hg', halts⟩ := ih hg.nodup hrest
          exact ⟨hg.cons hg', .cons (hids.imp fun _ _ => NamesCompiled.mono hg'.table_sub) halts⟩

theorem compileFiles_grows {id : Nat} {defs : List FileDef} {files : List DeclaredFile}
    (hnd : (c.patterns ++ pending).Nodup)
    (h : c.compileFiles id pending defs = .ok (files, pending')) :
    c.Grows pending pending' (fun k => ∃ f ∈ files, f.Uses k) ∧
      List.Forall₂ (DeclaredFile.CompiledFrom (c.patterns ++ pending')) files defs := by
  induction defs generalizing pending files with
  | nil =>
    obtain ⟨rfl, rfl⟩ := Prod.mk.inj (Except.ok.inj h)
    exact ⟨.refl hnd, .nil⟩
  | cons d rest ih =>
    unfold compileFiles at h
    split at h
    · cases h
    · rename_i path hpath
      split at h
      · cases h
      · rename_i binary pending1 hbin
        split at h
        · cases h
        · rename_i files' pending2 hrest
          obtain ⟨rfl, rfl⟩ := Prod.mk.inj (Except.ok.inj h)
          obtain ⟨hg, hbinary⟩ := compileBinary_grows hnd hbin
          obtain ⟨hg', hfiles⟩ := ih hg.nodup hrest
          have hfile : DeclaredFile.CompiledFrom (c.patterns ++ pending1) ⟨path, d.presence, binary⟩ d :=
            ⟨hpath, rfl, hbinary⟩
          exact ⟨hg.cons hg', .cons (hfile.mono hg'.table_sub) hfiles⟩

theorem compileSignature_grows {d : SignatureDef} {s : Signature}
    (hnd : (c.patterns ++ pending).Nodup) (h : c.compileSignature pending d = .ok (s, pending')) :
    c.Grows pending pending' s.Uses ∧ s.CompiledFrom (c.patterns ++ pending') d := by
  unfold compileSignature at h
  split at h
  · cases h
  · split at h
    · cases h
    · rename_i files pending1 hfiles
      obtain ⟨rfl, rfl⟩ := Prod.mk.inj (Except.ok.inj h)
      obtain ⟨hg, hf⟩ := compileFiles_grows hnd hfiles
      exact ⟨hg, rfl, rfl, rfl, hf⟩

theorem compileSignature_id {d : SignatureDef} {s : Signature}
    (h : c.compileSignature pending d = .ok (s, pending')) : s.id = d.id := by
  unfold compileSignature at h
  split at h
  · cases h
  · split at h
    · cases h
    · obtain ⟨rfl, -⟩ := Prod.mk.inj (Except.ok.inj h)
      rfl

theorem compileSignatures_grows {seen : List Nat} {defs : List SignatureDef}
    {sigs : List Signature} (hnd : (c.patterns ++ pending).Nodup)
    (h : c.compileSignatures seen pending defs = .ok (sigs, pending')) :
    c.Grows pending pending' (fun k => ∃ s ∈ sigs, s.Uses k) ∧
      List.Forall₂ (Signature.CompiledFrom (c.patterns ++ pending')) sigs defs := by
  induction defs generalizing seen pending sigs with
  | nil =>
    obtain ⟨rfl, rfl⟩ := Prod.mk.inj (Except.ok.inj h)
    exact ⟨.refl hnd, .nil⟩
  | cons d rest ih =>
    unfold compileSignatures at h
    split at h
    · cases h
    · split at h
      · cases h
      · rename_i s pending1 hsig
        split at h
        · cases h
        · rename_i sigs' pending2 hrest
          obtain ⟨rfl, rfl⟩ := Prod.mk.inj (Except.ok.inj h)
          obtain ⟨hg, hs⟩ := compileSignature_grows hnd hsig
          obtain ⟨hg', hsigs⟩ := ih hg.nodup hrest
          exact ⟨hg.cons hg', .cons (hs.mono hg'.table_sub) hsigs⟩

@[simp] theorem hasSignature_iff {id : Nat} :
    c.hasSignature id = true ↔ id ∈ c.signatures.map (·.id) := by
  simp [hasSignature]

/-- The signatures of a document have ids distinct from each other, from the catalog's and
from those met before. -/
theorem compileSignatures_fresh {seen : List Nat} {defs : List SignatureDef}
    {sigs : List Signature} (h : c.compileSignatures seen pending defs = .ok (sigs, pending')) :
    (sigs.map (·.id)).Nodup ∧ ∀ s ∈ sigs, s.id ∉ c.signatures.map (·.id) ∧ s.id ∉ seen := by
  induction defs generalizing seen pending sigs with
  | nil =>
    obtain ⟨rfl, rfl⟩ := Prod.mk.inj (Except.ok.inj h)
    exact ⟨.nil, fun _ hs => nomatch hs⟩
  | cons d rest ih =>
    unfold compileSignatures at h
    split at h
    · cases h
    · rename_i hfresh
      split at h
      · cases h
      · rename_i s pending1 hsig
        split at h
        · cases h
        · rename_i sigs' pending2 hrest
          obtain ⟨rfl, rfl⟩ := Prod.mk.inj (Except.ok.inj h)
          obtain ⟨hnd, hnew⟩ := ih hrest
          have hs : s.id = d.id := compileSignature_id hsig
          have hd : d.id ∉ c.signatures.map (·.id) ∧ d.id ∉ seen := by
            rw [← hasSignature_iff, ← not_or]
            exact hfresh
          refine ⟨List.nodup_cons.2 ⟨fun hmem => ?_, hnd⟩, ?_⟩
          · -- a later signature with the head's id would have met it in `seen`
            obtain ⟨s', hs', heq⟩ := List.mem_map.1 hmem
            exact (hnew s' hs').2 (heq.trans hs ▸ .head _)
          · rintro s' (_ | ⟨_, hs'⟩)
            · exact hs ▸ hd
            · exact ⟨(hnew s' hs').1, fun hm => (hnew s' hs').2 (.tail _ hm)⟩

/-! ## §3 Format tables -/

/-- A format table with one entry per key, each key from `keys`, each identifier listed once
and taken from a mapping of `mappings`. -/
structure FormatsFrom (keys : List Nat) (mappings : List FormatDef)
    (formats : List (Nat × List String)) : Prop where
  keys_nodup : (formats.map (·.1)).Nodup
  entry : ∀ e ∈ formats, e.1 ∈ keys ∧ e.2.Nodup ∧ ∀ puid ∈ e.2, ⟨e.1, puid⟩ ∈ mappings

section Formats

variable {keys keys' : List Nat} {mappings mappings' : List FormatDef}
  {formats : List (Nat × List String)}

theorem FormatsFrom.mono (h : FormatsFrom keys mappings formats) (hk : keys ⊆ keys')
    (hm : mappings ⊆ mappings') : FormatsFrom keys' mappings' formats := by
  refine ⟨h.keys_nodup, fun e he => ?_⟩
  obtain ⟨hkey, hnd, hfrom⟩ := h.entry e he
  exact ⟨hk hkey, hnd, fun puid hp => hm (hfrom puid hp)⟩

theorem lookup_eq_of_mem (hnd : (formats.map (·.1)).Nodup) {id : Nat} {ps : List String}
    (h : (id, ps) ∈ formats) : formats.lookup id = some ps := by
  induction formats with
  | nil => cases h
  | cons e rest ih =>
    obtain ⟨k, v⟩ := e
    obtain ⟨hk, hrest⟩ := List.nodup_cons.1 hnd
    rcases List.mem_cons.1 h with heq | hmem
    · obtain ⟨rfl, rfl⟩ := Prod.mk.inj heq
      exact List.lookup_cons_self
    · have hne : id ≠ k := fun heq => hk (List.mem_map.2 ⟨(id, ps), hmem, heq⟩)
      rw [List.lookup_cons, beq_false_of_ne hne]
      exact ih hrest hmem

/-- Recording an identifier of a known signature, taken from a mapping, keeps the table
sound. -/
theorem addFormat_formatsFrom (h : FormatsFrom keys mappings formats) {id : Nat}
    {puid : String} (hk : id ∈ keys) (hm : ⟨id, puid⟩ ∈ mappings) :
    FormatsFrom keys mappings (addFormat formats id puid) := by
  unfold addFormat
  split
  · rename_i puids hl
    split
    · exact h
    · rename_i hnew
      have hpuid : puid ∉ puids := by simpa using hnew
      refine ⟨?_, fun e he => ?_⟩
      · -- the update changes identifiers only, never keys
        rw [List.map_map]
        convert h.keys_nodup using 1
        refine List.map_congr_left fun ⟨i, ps⟩ _ => ?_
        dsimp only [Function.comp]
        split <;> rfl
      · obtain ⟨⟨i, ps⟩, hmem, rfl⟩ := List.mem_map.1 he
        obtain ⟨hkey, hnd, hfrom⟩ := h.entry _ hmem
        dsimp only
        split
        · rename_i hi
          subst hi
          have hps : ps = puids :=
            Option.some.inj ((lookup_eq_of_mem h.keys_nodup hmem).symm.trans hl)
          subst hps
          refine ⟨hkey, ?_, fun q hq => ?_⟩
          · rw [← List.concat_eq_append]
            exact hnd.concat hpuid
          · rcases List.mem_append.1 hq with hq | hq
            · exact hfrom q hq
            · rw [List.mem_singleton.1 hq]
              exact hm
        · exact ⟨hkey, hnd, hfrom⟩
  · rename_i hl
    have hfresh : id ∉ formats.map (·.1) := by
      intro hmem
      obtain ⟨e, he, rfl⟩ := List.mem_map.1 hmem
      simpa using List.lookup_eq_none_iff.1 hl e he
    refine ⟨?_, fun e he => ?_⟩
    · rw [List.map_append, List.map_singleton]
      refine List.nodup_append.2 ⟨h.keys_nodup, List.nodup_singleton _, fun a ha b hb hab => ?_⟩
      obtain rfl := List.mem_singleton.1 hb
      exact hfresh (hab ▸ ha)
    · rcases List.mem_append.1 he with he | he
      · exact h.entry e he
      · rw [List.mem_singleton.1 he]
        exact ⟨hk, List.nodup_singleton _, fun q hq => List.mem_singleton.1 hq ▸ hm⟩

end Formats

theorem applyFormats_patterns (mappings : List FormatDef) :
    (c.applyFormats mappings).patterns = c.patterns := by
  unfold applyFormats
  induction mappings generalizing c with
  | nil => rfl
  | cons m ms ih =>
    rw [List.foldl_cons, ih]
    split <;> rfl

theorem applyFormats_signatures (mappings : List FormatDef) :
    (c.applyFormats mappings).signatures = c.signatures := by
  unfold applyFormats
  induction mappings generalizing c with
  | nil => rfl
  | cons m ms ih =>
    rw [List.foldl_cons, ih]
    split <;> rfl

/-- Applying mappings taken from `ms` keeps a format table built from `ms` sound. -/
theorem applyFormats_formatsFrom {mappings ms : List FormatDef}
    (h : FormatsFrom (c.signatures.map (·.id)) ms c.formats) (hm : mappings ⊆ ms) :
    FormatsFrom (c.signatures.map (·.id)) ms (c.applyFormats mappings).formats := by
  unfold applyFormats
  induction mappings generalizing c with
  | nil => exact h
  | cons m rest ih =>
    rw [List.foldl_cons]
    have hrest : rest ⊆ ms := fun x hx => hm (.tail _ hx)
    split
    · rename_i hsig
      refine ih (c := { c with formats := addFormat c.formats m.signatureId m.puid }) ?_ hrest
      exact addFormat_formatsFrom h (hasSignature_iff.1 hsig) (hm (.head _))
    · exact ih h hrest

/-! ## §4 Consistent catalogs -/

/-- What a catalog built from the documents `docs` keeps true. -/
structure Consistent (c : Catalog) (docs : List Definitions) : Prop where
  /-- The pattern table holds each pattern once. -/
  patterns_nodup : c.patterns.Nodup
  /-- The signatures are the documents' definitions, each compiled against the table. -/
  compiled :
    List.Forall₂ (Signature.CompiledFrom c.patterns) c.signatures (docs.flatMap (·.signatures))
  /-- No two signatures share an id. -/
  ids_nodup : (c.signatures.map (·.id)).Nodup
  /-- Every pattern of the table is named by a signature. -/
  used : ∀ k < c.patterns.length, ∃ s ∈ c.signatures, s.Uses k
  /-- The format table is for the catalog's signatures, from the documents' mappings. -/
  formats : FormatsFrom (c.signatures.map (·.id)) (docs.flatMap (·.formats)) c.formats

theorem consistent_empty (settings : PrefilterSettings) :
    ({ prefilter := settings } : Catalog).Consistent [] :=
  ⟨.nil, .nil, .nil, fun k hk => absurd hk (Nat.not_lt_zero k), ⟨.nil, fun _ he => nomatch he⟩⟩

/-- Adding a document keeps a catalog consistent, with the document among those it is built
from. -/
theorem Consistent.add {docs : List Definitions} {d : Definitions} {c' : Catalog}
    (hc : c.Consistent docs) (h : c.add d = .ok c') : c'.Consistent (docs ++ [d]) := by
  unfold Catalog.add at h
  split at h
  · cases h
  · rename_i sigs pending hsigs
    obtain rfl := Except.ok.inj h
    have hnd : (c.patterns ++ []).Nodup := by
      rw [List.append_nil]
      exact hc.patterns_nodup
    obtain ⟨hg, hnew⟩ := compileSignatures_grows hnd hsigs
    obtain ⟨hids, hfresh⟩ := compileSignatures_fresh hsigs
    have hpre : c.patterns <+: c.patterns ++ pending := List.prefix_append _ _
    constructor
    · rw [applyFormats_patterns]
      exact hg.nodup
    · rw [applyFormats_patterns, applyFormats_signatures, List.flatMap_append]
      simp only [List.flatMap_cons, List.flatMap_nil, List.append_nil]
      exact List.rel_append (hc.compiled.imp fun _ _ => Signature.CompiledFrom.mono hpre) hnew
    · rw [applyFormats_signatures, List.map_append]
      refine List.nodup_append.2 ⟨hc.ids_nodup, hids, fun a ha b hb hab => ?_⟩
      obtain ⟨s, hs, rfl⟩ := List.mem_map.1 hb
      exact (hfresh s hs).1 (hab ▸ ha)
    · rw [applyFormats_patterns, applyFormats_signatures]
      intro k hk
      by_cases hold : k < c.patterns.length
      · obtain ⟨s, hs, hu⟩ := hc.used k hold
        exact ⟨s, List.mem_append_left _ hs, hu⟩
      · -- a new id is named by a signature of the document
        obtain ⟨s, hs, hu⟩ := hg.new k (by simpa using hold) hk
        exact ⟨s, List.mem_append_right _ hs, hu⟩
    · have hkeys : c.signatures.map (·.id) ⊆ (c.signatures ++ sigs).map (·.id) := by
        rw [List.map_append]
        exact List.subset_append_left _ _
      have hmaps : d.formats ⊆ (docs ++ [d]).flatMap (·.formats) := by
        simp only [List.flatMap_append, List.flatMap_cons, List.flatMap_nil, List.append_nil]
        exact List.subset_append_right _ _
      rw [applyFormats_signatures]
      refine applyFormats_formatsFrom (hc.formats.mono hkeys ?_) hmaps
      rw [List.flatMap_append]
      exact List.subset_append_left _ _

/-- A run from a consistent catalog: the documents accepted are a sublist of those given,
adding them alone one after another succeeds each time and builds the same catalog, and that
catalog is consistent. -/
theorem Consistent.addAll {kept : List Definitions} (hc : c.Consistent kept)
    (docs : List Definitions) :
    ∃ accepted, accepted.Sublist docs ∧ accepted.foldlM Catalog.add c = .ok (c.addAll docs) ∧
      (c.addAll docs).Consistent (kept ++ accepted) := by
  induction docs generalizing c kept with
  | nil =>
    rw [← List.append_nil kept] at hc
    exact ⟨[], .slnil, rfl, hc⟩
  | cons d ds ih =>
    rw [Catalog.addAll]
    split
    · rename_i c' hadd
      obtain ⟨acc, hsub, hfold, hcons⟩ := ih (hc.add hadd)
      refine ⟨d :: acc, hsub.cons_cons d, ?_, by simpa using hcons⟩
      rw [List.foldlM_cons, hadd]
      exact hfold
    · obtain ⟨acc, hsub, hfold, hcons⟩ := ih hc
      exact ⟨acc, hsub.cons d, hfold, hcons⟩

end Catalog

/-- Whatever documents are added, succeeding or failing, the catalog built is the one its
accepted documents build alone, each succeeding in turn, so a failed document changes
nothing; the catalog is consistent, and looking a pattern up in its table finds exactly the
pattern's own id. -/
theorem documents_build_consistent_catalog (settings : PrefilterSettings)
    (docs : List Definitions) :
    let c := ({ prefilter := settings } : Catalog).addAll docs
    ∃ accepted, accepted.Sublist docs ∧
      accepted.foldlM Catalog.add { prefilter := settings } = .ok c ∧ c.Consistent accepted ∧
      ∀ i p, c.patterns.idxOf? p = some i ↔ c.patterns[i]? = some p := by
  intro c
  obtain ⟨acc, hsub, hfold, hcons⟩ := (Catalog.consistent_empty settings).addAll docs
  rw [List.nil_append] at hcons
  exact ⟨acc, hsub, hfold, hcons, fun _ _ => idxOf?_eq_some_iff_of_nodup hcons.patterns_nodup⟩

end ContainerProbe
