import Mathlib
import ContainerProbe.Proofs.Stream
import ContainerProbe.Verdict.Identify
import ContainerProbe.Proofs.Catalog

/-!
# What a signature asks of a container

A signature's declared files are judged against the container's entries, each taken with all
its bytes. A pattern matches an entry when it matches the entry's scan window; an alternative
of a file's binary signatures is satisfied when all its patterns match, and the file's
signatures are satisfied when one alternative is. With `M` the entries whose name the file's
path accepts, once the path is resolved for the container:

* a required file without binary signatures needs `M` non-empty;
* a required file whose path is a glob needs some entry of `M` to satisfy it;
* any other required file needs `M` non-empty and every entry of `M` to satisfy it;
* a file declared absent without binary signatures needs `M` empty;
* a file declared absent with binary signatures needs no entry of `M` to satisfy it.

A signature holds of a container when every declared file does. The entries' bytes are what
a container shows: an entry's reader delivers a beginning of them, and all of them when it
ends cleanly; of an entry that cannot be opened nothing is known.

Libraries are built from definition documents through a catalog, and a built catalog's
signatures name only patterns of its table.

## Main statements

* `Container.shows_listing`: a container shows the bytes its readers deliver.
* `Catalog.Built.resolves`: the library of a built catalog resolves every pattern id.
-/

namespace ContainerProbe

/-! ## §1 Judging files -/

namespace Library

/-- The verdict of pattern `id` on the bytes `d` seen through the scan window of `limit`; a
pattern the table lacks matches nothing. -/
def verdict (lib : Library) (limit : Option Nat) (d : ByteArray) (id : Nat) : Bool :=
  match lib.pattern? id with
  | some p =>
    match (p.evaluate none (Window.make d limit)).1 with
    | .ok b => b
    | .error _ => false
  | none => false

/-- Whether the bytes `d` satisfy a file's binary signatures: every pattern of some
alternative matches. -/
def satisfies (lib : Library) (limit : Option Nat) (f : DeclaredFile) (d : ByteArray) : Bool :=
  f.binary.any fun conj => conj.all (lib.verdict limit d)

/-- Every pattern id the library's signatures name is in its pattern table. -/
def Resolves (lib : Library) : Prop :=
  ∀ s ∈ lib.signatures, ∀ f ∈ s.files, ∀ conj ∈ f.binary, ∀ id ∈ conj, id < lib.patterns.length

end Library

/-- Whether a declared file, its path resolved to `b`, holds of entries given with their
bytes. -/
def DeclaredFile.holds (lib : Library) (limit : Option Nat) (b : ResolvedPath)
    (f : DeclaredFile) (entries : List (String × ByteArray)) : Bool :=
  let matching := entries.filter fun e => b.accepts e.1
  match f.presence with
  | .required =>
    if !f.hasBinary then !matching.isEmpty
    else if b.isWildcard then matching.any fun e => lib.satisfies limit f e.2
    else !matching.isEmpty && matching.all fun e => lib.satisfies limit f e.2
  | .absent =>
    if !f.hasBinary then matching.isEmpty
    else !matching.any fun e => lib.satisfies limit f e.2

/-- Whether every declared file of a signature holds of a container named `name` whose
entries are given with their bytes. -/
def Signature.holds (lib : Library) (limit : Option Nat) (name : Option String)
    (entries : List (String × ByteArray)) (s : Signature) : Bool :=
  s.files.all fun f => f.holds lib limit (f.path.bind name) entries

/-! ## §2 What a container shows -/

namespace Container

/-- The container shows `entries`: its entries' names in order, each with bytes that its
reader's delivery begins, and ends when the reader ends cleanly. -/
def Shows (c : Container) (entries : List (String × ByteArray)) : Prop :=
  List.Forall₂ (fun e v => e.name = v.1 ∧ ∀ F, e.content = .ok F → F.Completes v.2)
    c.entries entries

/-- Every entry opens, and its reader ends cleanly. -/
def Readable (c : Container) : Prop :=
  ∀ e ∈ c.entries, ∃ F : Feed, e.content = .ok F ∧ F.failure = none

/-- The entries with the bytes their readers deliver. -/
def listing (c : Container) : List (String × ByteArray) :=
  c.entries.map fun e => (e.name, match e.content with | .ok F => F.bytes | .error _ => .empty)

theorem shows_listing (c : Container) : c.Shows c.listing := by
  unfold Shows listing
  induction c.entries with
  | nil => exact .nil
  | cons e es ih =>
    refine .cons ⟨rfl, fun F hF => ?_⟩ ih
    dsimp only
    rw [hF]
    exact Feed.completes_bytes F

end Container

/-! ## §3 Built catalogs name only their own patterns -/

/-- The catalogs that compiling definition documents builds: one holding no document, under
any prefilter settings, and one a document was added to. -/
inductive Catalog.Built : Catalog → Prop
  | empty (settings : PrefilterSettings) : Catalog.Built { prefilter := settings }
  | add {c c' : Catalog} (defs : Definitions) : Catalog.Built c → c.add defs = .ok c' →
      Catalog.Built c'

/-- Every pattern id a declared file names is below `n`. -/
def DeclaredFile.NamesBelow (n : Nat) (f : DeclaredFile) : Prop :=
  ∀ conj ∈ f.binary, ∀ id ∈ conj, id < n

theorem DeclaredFile.NamesBelow.mono {n n' : Nat} {f : DeclaredFile} (h : f.NamesBelow n)
    (hn : n ≤ n') : f.NamesBelow n' :=
  fun conj hc id hid => Nat.lt_of_lt_of_le (h conj hc id hid) hn

namespace Catalog

variable {c : Catalog}

/-- A pattern's id is below the table once the pending patterns it may join are added. -/
theorem pendingId_lt {pending pending' : List Pattern} {p : Pattern} {i : Nat}
    (h : c.pendingId pending p = (i, pending')) :
    pending <+: pending' ∧ i < c.patterns.length + pending'.length := by
  unfold pendingId at h
  split at h
  · rename_i j hj
    obtain ⟨rfl, rfl⟩ := Prod.mk.inj h
    have := (List.idxOf?_eq_some_iff.1 hj).1
    exact ⟨List.prefix_refl _, by omega⟩
  · split at h
    · rename_i j hj
      obtain ⟨rfl, rfl⟩ := Prod.mk.inj h
      have := (List.idxOf?_eq_some_iff.1 hj).1
      exact ⟨List.prefix_refl _, by omega⟩
    · obtain ⟨rfl, rfl⟩ := Prod.mk.inj h
      exact ⟨List.prefix_append _ _, by simp⟩

theorem compileConjunction_lt {pending pending' : List Pattern} {seqs : List SequenceDef}
    {ids : List Nat} (h : c.compileConjunction pending seqs = .ok (ids, pending')) :
    pending <+: pending' ∧ ∀ id ∈ ids, id < c.patterns.length + pending'.length := by
  induction seqs generalizing pending ids with
  | nil =>
    obtain ⟨rfl, rfl⟩ := Prod.mk.inj (Except.ok.inj h)
    exact ⟨List.prefix_refl _, by simp⟩
  | cons s rest ih =>
    unfold compileConjunction at h
    split at h
    · cases h
    · rename_i p _
      rcases hid : c.pendingId pending p with ⟨i, pending1⟩
      rw [hid] at h
      dsimp only at h
      split at h
      · cases h
      · rename_i ids' pending2 hrest
        obtain ⟨rfl, rfl⟩ := Prod.mk.inj (Except.ok.inj h)
        obtain ⟨hpre, hi⟩ := pendingId_lt hid
        obtain ⟨hpre', hids⟩ := ih hrest
        have hlen := hpre'.length_le
        refine ⟨hpre.trans hpre', ?_⟩
        rintro id (_ | ⟨_, hmem⟩)
        · omega
        · exact hids id hmem

theorem compileBinary_lt {id : Nat} {path : String} {pending pending' : List Pattern}
    {alts : List (List SequenceDef)} {binary : List (List Nat)}
    (h : c.compileBinary id path pending alts = .ok (binary, pending')) :
    pending <+: pending' ∧
      ∀ conj ∈ binary, ∀ i ∈ conj, i < c.patterns.length + pending'.length := by
  induction alts generalizing pending binary with
  | nil =>
    obtain ⟨rfl, rfl⟩ := Prod.mk.inj (Except.ok.inj h)
    exact ⟨List.prefix_refl _, by simp⟩
  | cons conj rest ih =>
    unfold compileBinary at h
    split at h
    · cases h
    · split at h
      · cases h
      · rename_i ids pending1 hconj
        split at h
        · cases h
        · rename_i alts' pending2 hrest
          obtain ⟨rfl, rfl⟩ := Prod.mk.inj (Except.ok.inj h)
          obtain ⟨hpre, hids⟩ := compileConjunction_lt hconj
          obtain ⟨hpre', halts⟩ := ih hrest
          have hlen := hpre'.length_le
          refine ⟨hpre.trans hpre', ?_⟩
          rintro conj' (_ | ⟨_, hmem⟩) i hi
          · have := hids i hi
            omega
          · exact halts conj' hmem i hi

theorem compileFiles_lt {id : Nat} {pending pending' : List Pattern} {defs : List FileDef}
    {files : List DeclaredFile} (h : c.compileFiles id pending defs = .ok (files, pending')) :
    pending <+: pending' ∧ ∀ f ∈ files, f.NamesBelow (c.patterns.length + pending'.length) := by
  induction defs generalizing pending files with
  | nil =>
    obtain ⟨rfl, rfl⟩ := Prod.mk.inj (Except.ok.inj h)
    exact ⟨List.prefix_refl _, by simp⟩
  | cons d rest ih =>
    unfold compileFiles at h
    split at h
    · cases h
    · split at h
      · cases h
      · rename_i binary pending1 hbin
        split at h
        · cases h
        · rename_i files' pending2 hrest
          obtain ⟨rfl, rfl⟩ := Prod.mk.inj (Except.ok.inj h)
          obtain ⟨hpre, hbinary⟩ := compileBinary_lt hbin
          obtain ⟨hpre', hfiles⟩ := ih hrest
          have hlen := hpre'.length_le
          refine ⟨hpre.trans hpre', ?_⟩
          rintro f (_ | ⟨_, hmem⟩)
          · exact DeclaredFile.NamesBelow.mono hbinary (by omega)
          · exact hfiles f hmem

theorem compileSignature_lt {pending pending' : List Pattern} {d : SignatureDef} {s : Signature}
    (h : c.compileSignature pending d = .ok (s, pending')) :
    pending <+: pending' ∧ ∀ f ∈ s.files, f.NamesBelow (c.patterns.length + pending'.length) := by
  unfold compileSignature at h
  split at h
  · cases h
  · split at h
    · cases h
    · rename_i files pending1 hfiles
      obtain ⟨rfl, rfl⟩ := Prod.mk.inj (Except.ok.inj h)
      exact compileFiles_lt hfiles

theorem compileSignatures_lt {seen : List Nat} {pending pending' : List Pattern}
    {defs : List SignatureDef} {sigs : List Signature}
    (h : c.compileSignatures seen pending defs = .ok (sigs, pending')) :
    pending <+: pending' ∧
      ∀ s ∈ sigs, ∀ f ∈ s.files, f.NamesBelow (c.patterns.length + pending'.length) := by
  induction defs generalizing seen pending sigs with
  | nil =>
    obtain ⟨rfl, rfl⟩ := Prod.mk.inj (Except.ok.inj h)
    exact ⟨List.prefix_refl _, by simp⟩
  | cons d rest ih =>
    unfold compileSignatures at h
    split at h
    · cases h
    · split at h
      · cases h
      · rename_i s pending1 hsig
        split at h
        · cases h
        · rename_i sigs' pending2 hrest
          obtain ⟨rfl, rfl⟩ := Prod.mk.inj (Except.ok.inj h)
          obtain ⟨hpre, hfiles⟩ := compileSignature_lt hsig
          obtain ⟨hpre', hsigs⟩ := ih hrest
          have hlen := hpre'.length_le
          refine ⟨hpre.trans hpre', ?_⟩
          rintro s' (_ | ⟨_, hmem⟩) f hf
          · exact (hfiles f hf).mono (by omega)
          · exact hsigs s' hmem f hf

/-- Adding a document keeps every signature's pattern ids in the table. -/
theorem add_namesBelow {c' : Catalog} {defs : Definitions} (h : c.add defs = .ok c')
    (hc : ∀ s ∈ c.signatures, ∀ f ∈ s.files, f.NamesBelow c.patterns.length) :
    ∀ s ∈ c'.signatures, ∀ f ∈ s.files, f.NamesBelow c'.patterns.length := by
  unfold add at h
  split at h
  · cases h
  · rename_i sigs pending hsigs
    obtain rfl := Except.ok.inj h
    rw [applyFormats_patterns, applyFormats_signatures]
    obtain ⟨-, hnew⟩ := compileSignatures_lt hsigs
    intro s hs f hf
    rw [List.length_append]
    rcases List.mem_append.1 hs with hold | hnew'
    · exact (hc s hold f hf).mono (by omega)
    · exact hnew s hnew' f hf

/-- The library of a built catalog names only patterns of its table. -/
theorem Built.resolves {c : Catalog} (h : c.Built) : (Library.ofCatalog c).Resolves := by
  induction h with
  | empty settings => intro s hs; cases hs
  | add defs _ hadd ih => exact add_namesBelow hadd ih

end Catalog

end ContainerProbe
